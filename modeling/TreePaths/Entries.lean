/-!
# Entries: an ordered mapping

An `Entries α` lists the entries of a mapping in the order in which their keys were first written.
Writing to a key that is present replaces its value where it stands, and a new key goes to the end;
removing a key leaves the order of the others as it was.

The only observation is `lookup`. Each operation says beside its definition what it does to
`lookup`, to the list of keys and to the absence of repeated keys (`Distinct`), so that later
arguments do not unfold it.
-/

namespace TreePaths

universe u

/-- The entries of a mapping, in the order in which their keys were first written. -/
abbrev Entries (α : Type u) : Type u := List (String × α)

namespace Entries

variable {α : Type u}

def keys (es : Entries α) : List String := es.map (·.1)

@[simp] theorem keys_nil : keys ([] : Entries α) = [] := rfl

@[simp] theorem keys_cons (k : String) (a : α) (es : Entries α) :
    keys ((k, a) :: es) = k :: keys es := rfl

@[simp] theorem keys_append (es fs : Entries α) : keys (es ++ fs) = keys es ++ keys fs :=
  List.map_append

def Distinct (es : Entries α) : Prop := (keys es).Nodup

instance (es : Entries α) : Decidable (Distinct es) :=
  inferInstanceAs (Decidable (keys es).Nodup)

def lookup (k : String) : Entries α → Option α
  | [] => none
  | (l, a) :: es => if l = k then some a else lookup k es

@[simp] theorem lookup_nil (k : String) : lookup k ([] : Entries α) = none := rfl

theorem lookup_cons (k l : String) (a : α) (es : Entries α) :
    lookup k ((l, a) :: es) = if l = k then some a else lookup k es := rfl

theorem lookup_eq_none_iff {k : String} {es : Entries α} : lookup k es = none ↔ k ∉ keys es := by
  induction es with
  | nil => simp
  | cons e es ih =>
      obtain ⟨l, a⟩ := e
      by_cases h : l = k
      · simp [lookup_cons, h]
      · simp [lookup_cons, h, ih, Ne.symm h]

/-- Where no key is repeated, every entry is found under its key. -/
theorem lookup_of_mem {es : Entries α} (hd : Distinct es) {e : String × α} (he : e ∈ es) :
    lookup e.1 es = some e.2 := by
  induction es with
  | nil => exact absurd he List.not_mem_nil
  | cons f es ih =>
      obtain ⟨l, a⟩ := f
      have hd : l ∉ keys es ∧ Distinct es := List.nodup_cons.1 hd
      rcases List.mem_cons.1 he with rfl | he
      · simp [lookup_cons]
      · have hl : l ≠ e.1 := fun h => hd.1 (h ▸ List.mem_map_of_mem he)
        simp [lookup_cons, hl, ih hd.2 he]

def has (k : String) (es : Entries α) : Bool := (lookup k es).isSome

theorem has_iff {k : String} {es : Entries α} : has k es = true ↔ k ∈ keys es := by
  have h := @lookup_eq_none_iff α k es
  by_cases hk : k ∈ keys es <;> simp_all [has, Option.isSome_iff_ne_none]

/-- Writes a value at a key: in place if the key is present, at the end if it is new. -/
def insert (k : String) (a : α) : Entries α → Entries α
  | [] => [(k, a)]
  | (l, b) :: es => if l = k then (k, a) :: es else (l, b) :: insert k a es

@[simp] theorem insert_nil (k : String) (a : α) : insert k a [] = [(k, a)] := rfl

theorem insert_cons (k l : String) (a b : α) (es : Entries α) :
    insert k a ((l, b) :: es) = if l = k then (k, a) :: es else (l, b) :: insert k a es := rfl

theorem lookup_insert (k l : String) (a : α) (es : Entries α) :
    lookup l (insert k a es) = if k = l then some a else lookup l es := by
  induction es with
  | nil => simp [lookup_cons]
  | cons e es ih =>
      obtain ⟨m, b⟩ := e
      by_cases hm : m = k <;> by_cases hk : k = l <;> simp_all [insert_cons, lookup_cons]

@[simp] theorem lookup_insert_self (k : String) (a : α) (es : Entries α) :
    lookup k (insert k a es) = some a := by
  simp [lookup_insert]

theorem lookup_insert_of_ne {k l : String} (h : k ≠ l) (a : α) (es : Entries α) :
    lookup l (insert k a es) = lookup l es := by
  simp [lookup_insert, h]

theorem keys_insert (k : String) (a : α) (es : Entries α) :
    keys (insert k a es) = if k ∈ keys es then keys es else keys es ++ [k] := by
  induction es with
  | nil => simp
  | cons e es ih =>
      obtain ⟨l, b⟩ := e
      by_cases h : l = k
      · simp [insert_cons, h]
      · by_cases hk : k ∈ keys es <;> simp [insert_cons, h, Ne.symm h, ih, hk]

theorem Distinct.insert {es : Entries α} (h : Distinct es) (k : String) (a : α) :
    Distinct (insert k a es) := by
  unfold Distinct at *
  rw [keys_insert]
  split
  · exact h
  · rename_i hk
    refine List.nodup_append.2 ⟨h, by simp, fun l hl m hm hlm => hk ?_⟩
    rw [← List.mem_singleton.1 hm, ← hlm]
    exact hl

/-- Changes the value at a key, which counts as `new` where the key is absent. -/
def update (k : String) (new : α) (f : α → α) (es : Entries α) : Entries α :=
  insert k (f ((lookup k es).getD new)) es

theorem lookup_update (k l : String) (new : α) (f : α → α) (es : Entries α) :
    lookup l (update k new f es) =
      if k = l then some (f ((lookup k es).getD new)) else lookup l es :=
  lookup_insert k l _ es

theorem keys_update (k : String) (new : α) (f : α → α) (es : Entries α) :
    keys (update k new f es) = if k ∈ keys es then keys es else keys es ++ [k] :=
  keys_insert k _ es

/-- Removes a key and keeps the order of the others. -/
def erase (k : String) (es : Entries α) : Entries α := es.filter fun e => e.1 ≠ k

theorem lookup_erase (k l : String) (es : Entries α) :
    lookup l (erase k es) = if k = l then none else lookup l es := by
  unfold erase
  induction es with
  | nil => simp
  | cons e es ih =>
      obtain ⟨m, b⟩ := e
      by_cases hm : m = k <;> by_cases hk : k = l <;>
        simp_all [lookup_cons]

theorem keys_erase (k : String) (es : Entries α) :
    keys (erase k es) = (keys es).filter fun l => l ≠ k := by
  simp [keys, erase, List.filter_map, Function.comp_def]

theorem Distinct.erase {es : Entries α} (h : Distinct es) (k : String) :
    Distinct (erase k es) := by
  unfold Distinct at *
  rw [keys_erase]
  exact h.filter _

/-- Changes the value at a key that is present, and does nothing where it is absent. -/
def modify (k : String) (f : α → α) : Entries α → Entries α
  | [] => []
  | (l, a) :: es => if l = k then (l, f a) :: es else (l, a) :: modify k f es

theorem modify_cons (k l : String) (f : α → α) (a : α) (es : Entries α) :
    modify k f ((l, a) :: es) = if l = k then (l, f a) :: es else (l, a) :: modify k f es := rfl

theorem lookup_modify (k l : String) (f : α → α) (es : Entries α) :
    lookup l (modify k f es) = if k = l then (lookup l es).map f else lookup l es := by
  induction es with
  | nil => simp [modify]
  | cons e es ih =>
      obtain ⟨m, b⟩ := e
      by_cases hm : m = k <;> by_cases hk : k = l <;> simp_all [modify_cons, lookup_cons]

theorem keys_modify (k : String) (f : α → α) (es : Entries α) :
    keys (modify k f es) = keys es := by
  induction es with
  | nil => rfl
  | cons e es ih =>
      obtain ⟨l, a⟩ := e
      by_cases h : l = k <;> simp [modify_cons, h, ih]

/-- The mapping that arises when entries are written one after another: a repeated key keeps its
first place and its last value. -/
def ofList (es : List (String × α)) : Entries α := es.foldl (fun fs e => insert e.1 e.2 fs) []

theorem distinct_ofList (es : List (String × α)) : Distinct (ofList es) := by
  suffices h : ∀ fs : Entries α, Distinct fs →
      Distinct (es.foldl (fun fs e => insert e.1 e.2 fs) fs) from h [] List.nodup_nil
  induction es with
  | nil => exact fun _ h => h
  | cons e es ih => exact fun fs h => ih _ (h.insert e.1 e.2)

def hasAll (ks : List String) (es : Entries α) : Bool := ks.all fun k => has k es

def firstKey? (es : Entries α) : Option String := es.head?.map (·.1)

def firstValue? (es : Entries α) : Option α := es.head?.map (·.2)

end Entries

end TreePaths
