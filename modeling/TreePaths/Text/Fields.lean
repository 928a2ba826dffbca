/-!
# Cutting text at a separator

`fields sep cs` cuts `cs` at every separator and keeps what stands between, empty or not, so a text
with `n` separators has `n + 1` fields. `parts sep cs` keeps the fields that are not empty, which
makes leading, trailing and doubled separators disappear.
-/

namespace TreePaths.Text

/-- The fields of a text between its separators. -/
def fields (sep : Char) : List Char → List (List Char)
  | [] => [[]]
  | c :: cs => if c = sep then [] :: fields sep cs else (fields sep cs).modifyHead (c :: ·)

@[simp] theorem fields_nil (sep : Char) : fields sep [] = [[]] := rfl

theorem fields_cons_self (sep : Char) (cs : List Char) :
    fields sep (sep :: cs) = [] :: fields sep cs := by
  simp [fields]

theorem fields_cons_of_ne {sep c : Char} (h : c ≠ sep) (cs : List Char) :
    fields sep (c :: cs) = (fields sep cs).modifyHead (c :: ·) := by
  simp [fields, h]

theorem fields_ne_nil (sep : Char) (cs : List Char) : fields sep cs ≠ [] := by
  induction cs with
  | nil => simp
  | cons c cs ih =>
      by_cases h : c = sep
      · simp [fields, h]
      · cases hf : fields sep cs with
        | nil => exact absurd hf ih
        | cons f fs => simp [fields, h, hf]

theorem not_mem_of_mem_fields {sep : Char} {cs f : List Char} (hf : f ∈ fields sep cs) :
    sep ∉ f := by
  induction cs generalizing f with
  | nil => simp_all
  | cons c cs ih =>
      by_cases h : c = sep
      · subst h
        rw [fields_cons_self, List.mem_cons] at hf
        rcases hf with rfl | hf
        · simp
        · exact ih hf
      · rw [fields_cons_of_ne h] at hf
        cases hfs : fields sep cs with
        | nil => exact absurd hfs (fields_ne_nil sep cs)
        | cons g gs =>
            rw [hfs, List.modifyHead_cons, List.mem_cons] at hf
            rcases hf with rfl | hf
            · simp [Ne.symm h, ih (hfs ▸ List.mem_cons_self)]
            · exact ih (hfs ▸ List.mem_cons_of_mem _ hf)

def parts (sep : Char) (cs : List Char) : List (List Char) :=
  (fields sep cs).filter fun f => f ≠ []

theorem ne_nil_of_mem_parts {sep : Char} {cs f : List Char} (h : f ∈ parts sep cs) : f ≠ [] := by
  simpa using (List.mem_filter.1 h).2

end TreePaths.Text
