import TreePaths.Text.Fields

/-!
# Joining fields

Cutting at a separator and joining with it are inverse to each other, as long as no field that is
joined holds the separator. For `parts` this leaves the fields that are not empty.
-/

namespace TreePaths.Text

theorem fields_eq_splitOn (sep : Char) (cs : List Char) : fields sep cs = cs.splitOn sep := by
  induction cs with
  | nil => rw [fields_nil, List.splitOn_nil]
  | cons c cs ih =>
      rw [List.splitOn_cons_eq_if_modifyHead, ← ih]
      by_cases h : c = sep
      · subst h
        simp [fields_cons_self]
      · simp [fields_cons_of_ne h, h]

theorem intercalate_fields (sep : Char) (cs : List Char) :
    List.intercalate [sep] (fields sep cs) = cs := by
  rw [fields_eq_splitOn, List.intercalate_splitOn]

theorem fields_intercalate {sep : Char} {fs : List (List Char)} (hne : fs ≠ [])
    (h : ∀ f ∈ fs, sep ∉ f) : fields sep (List.intercalate [sep] fs) = fs := by
  rw [fields_eq_splitOn, List.splitOn_intercalate sep h hne]

@[simp] theorem parts_nil (sep : Char) : parts sep [] = [] := rfl

/-- Joined fields are cut apart again, but for the empty ones. -/
theorem parts_intercalate {sep : Char} {fs : List (List Char)} (h : ∀ f ∈ fs, sep ∉ f) :
    parts sep (List.intercalate [sep] fs) = fs.filter fun f => f ≠ [] := by
  cases fs with
  | nil => rfl
  | cons f fs => rw [parts, fields_intercalate (by simp) h]

theorem mem_intercalate_of_mem {sep f : List Char} {fs : List (List Char)} {c : Char}
    (hf : f ∈ fs) (hc : c ∈ f) : c ∈ List.intercalate sep fs := by
  induction fs with
  | nil => exact absurd hf List.not_mem_nil
  | cons g gs ih =>
      by_cases hgs : gs = []
      · subst hgs
        obtain rfl : f = g := by simpa using hf
        rwa [List.intercalate_singleton]
      · rw [List.intercalate_cons_of_ne_nil hgs, List.mem_append, List.mem_append]
        rcases List.mem_cons.1 hf with rfl | hf
        · exact .inl (.inl hc)
        · exact .inr (ih hf)

theorem mem_intercalate {sep : Char} {fs : List (List Char)} {c : Char}
    (h : c ∈ List.intercalate [sep] fs) : c = sep ∨ ∃ f ∈ fs, c ∈ f := by
  induction fs with
  | nil => simp [List.intercalate_nil] at h
  | cons f fs ih =>
      by_cases hfs : fs = []
      · subst hfs
        rw [List.intercalate_singleton] at h
        exact .inr ⟨f, by simp, h⟩
      · rw [List.intercalate_cons_of_ne_nil hfs] at h
        simp only [List.append_assoc, List.singleton_append, List.mem_append, List.mem_cons] at h
        rcases h with h | h | h
        · exact .inr ⟨f, by simp, h⟩
        · exact .inl h
        · rcases ih h with rfl | ⟨g, hg, hc⟩
          · exact .inl rfl
          · exact .inr ⟨g, by simp [hg], hc⟩

/-- Without the separators, joined fields stand next to each other. -/
theorem filter_intercalate {sep : Char} {fs : List (List Char)} (h : ∀ f ∈ fs, sep ∉ f) :
    (List.intercalate [sep] fs).filter (· ≠ sep) = fs.flatten := by
  induction fs with
  | nil => rfl
  | cons f fs ih =>
      rw [List.forall_mem_cons] at h
      have hf : f.filter (· ≠ sep) = f :=
        List.filter_eq_self.2 fun c hc => decide_eq_true fun he => h.1 (he ▸ hc)
      by_cases hfs : fs = []
      · rw [hfs, List.intercalate_singleton, hf, List.flatten_singleton]
      · rw [List.intercalate_cons_of_ne_nil hfs, List.filter_append, List.filter_append, hf, ih h.2,
          List.flatten_cons]
        simp

/-- What is appended to the last field is appended to the joined text. -/
theorem intercalate_append_last (sep : List Char) (fs : List (List Char)) (xs ys : List Char) :
    List.intercalate sep (fs ++ [xs ++ ys]) = List.intercalate sep (fs ++ [xs]) ++ ys := by
  induction fs with
  | nil => simp [List.intercalate_singleton]
  | cons f fs ih =>
      rw [List.cons_append, List.cons_append, List.intercalate_cons_of_ne_nil (by simp),
        List.intercalate_cons_of_ne_nil (by simp), ih]
      simp

theorem parts_append_cons (sep : Char) (xs ys : List Char) :
    parts sep (xs ++ sep :: ys) = parts sep xs ++ parts sep ys := by
  have hsplit : (xs ++ sep :: ys).splitOn sep = xs.splitOn sep ++ ys.splitOn sep :=
    List.splitOnP_append_cons xs ys (by simp)
  unfold parts
  rw [fields_eq_splitOn, fields_eq_splitOn, fields_eq_splitOn, hsplit, List.filter_append]

/-- What stands before the last separator of a text has been cut off, whatever follows the text. -/
theorem exists_fields_append (sep : Char) (xs : List Char) :
    ∃ before last, ∀ ys,
      fields sep (xs ++ ys) = before ++ (fields sep ys).modifyHead (last ++ ·) := by
  induction xs with
  | nil =>
      refine ⟨[], [], fun ys => ?_⟩
      cases hf : fields sep ys <;> simp [hf]
  | cons c xs ih =>
      rcases ih with ⟨before, last, hcut⟩
      by_cases hc : c = sep
      · refine ⟨[] :: before, last, fun ys => ?_⟩
        rw [hc, List.cons_append, fields_cons_self, hcut, List.cons_append]
      · cases before with
        | nil =>
            refine ⟨[], c :: last, fun ys => ?_⟩
            rw [List.cons_append, fields_cons_of_ne hc, hcut]
            cases fields sep ys <;> rfl
        | cons f before =>
            refine ⟨(c :: f) :: before, last, fun ys => ?_⟩
            rw [List.cons_append, fields_cons_of_ne hc, hcut]
            rfl

theorem fields_append_of_not_mem {sep : Char} {xs : List Char} (h : sep ∉ xs) (ys : List Char) :
    fields sep (xs ++ ys) = (fields sep ys).modifyHead (xs ++ ·) := by
  induction xs with
  | nil => cases hf : fields sep ys <;> simp [hf]
  | cons c xs ih =>
      rw [List.mem_cons, not_or] at h
      rw [List.cons_append, fields_cons_of_ne (Ne.symm h.1), ih h.2]
      cases fields sep ys <;> rfl

/-- A text without separators that stands between two others belongs to one part. -/
theorem exists_parts_append (sep : Char) (xs ys : List Char) :
    ∃ before x y after, ∀ ms, ms ≠ [] → sep ∉ ms →
      parts sep (xs ++ (ms ++ ys)) = before ++ (x ++ (ms ++ y)) :: after := by
  rcases exists_fields_append sep xs with ⟨before, x, hcut⟩
  cases hys : fields sep ys with
  | nil => exact absurd hys (fields_ne_nil sep ys)
  | cons y after =>
      refine ⟨before.filter (· ≠ []), x, y, after.filter (· ≠ []), fun ms hne hms => ?_⟩
      rw [parts, hcut, fields_append_of_not_mem hms, hys]
      simp [hne]

theorem not_mem_of_mem_parts {sep : Char} {cs f : List Char} (hf : f ∈ parts sep cs) : sep ∉ f :=
  not_mem_of_mem_fields (List.mem_filter.1 hf).1

/-- The characters of a part stand in the text. -/
theorem mem_of_mem_parts {sep : Char} {cs f : List Char} (hf : f ∈ parts sep cs) {c : Char}
    (hc : c ∈ f) : c ∈ cs := by
  rw [← intercalate_fields sep cs]
  exact mem_intercalate_of_mem (List.mem_filter.1 hf).1 hc

end TreePaths.Text
