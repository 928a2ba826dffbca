import Mathlib.Data.List.Forall2

/-!
# Operations that may fail

When a composite of operations that may fail succeeds, each of its parts did. A list of operations
succeeds if and only if they do one by one. When a composite fails, its error is that of the first
part which did.
-/

namespace TreePaths.Outcome

variable {ε α β : Type}

theorem map_eq_ok_iff {f : α → β} {x : Except ε α} {b : β} :
    x.map f = .ok b ↔ ∃ a, x = .ok a ∧ f a = b := by
  cases x <;> simp [Except.map]

theorem map_eq_error_iff {f : α → β} {x : Except ε α} {e : ε} :
    x.map f = .error e ↔ x = .error e := by
  cases x <;> simp [Except.map]

theorem bind_eq_ok_iff {f : α → Except ε β} {x : Except ε α} {b : β} :
    x.bind f = .ok b ↔ ∃ a, x = .ok a ∧ f a = .ok b := by
  cases x <;> simp [Except.bind]

theorem mapM_cons (f : α → Except ε β) (x : α) (xs : List α) :
    (x :: xs).mapM f = (f x).bind fun y => (xs.mapM f).map (y :: ·) := by
  rw [List.mapM_cons]
  rfl

theorem mapM_eq_ok_iff {f : α → Except ε β} {xs : List α} {ys : List β} :
    xs.mapM f = .ok ys ↔ List.Forall₂ (fun x y => f x = .ok y) xs ys := by
  induction xs generalizing ys with
  | nil =>
      rw [List.mapM_nil, List.forall₂_nil_left_iff]
      exact ⟨fun h => (Except.ok.inj h).symm, fun h => h ▸ rfl⟩
  | cons x xs ih =>
      rw [mapM_cons, bind_eq_ok_iff, List.forall₂_cons_left_iff]
      simp only [map_eq_ok_iff, ih]
      constructor
      · rintro ⟨y, hy, zs, hzs, rfl⟩
        exact ⟨y, zs, hy, hzs, rfl⟩
      · rintro ⟨y, zs, hy, hzs, rfl⟩
        exact ⟨y, hy, zs, hzs, rfl⟩

/-- When a list of operations fails, one of them failed in that way. -/
theorem exists_of_mapM_eq_error {f : α → Except ε β} {xs : List α} {e : ε}
    (h : xs.mapM f = .error e) : ∃ x ∈ xs, f x = .error e := by
  induction xs with
  | nil => cases h
  | cons x xs ih =>
      rw [List.mapM_cons] at h
      cases hx : f x with
      | error e' =>
          rw [hx] at h
          obtain rfl := Except.error.inj h
          exact ⟨x, List.mem_cons_self, hx⟩
      | ok y =>
          rw [hx] at h
          cases hxs : xs.mapM f with
          | error e' =>
              rw [hxs] at h
              obtain rfl := Except.error.inj h
              obtain ⟨z, hz, hfz⟩ := ih hxs
              exact ⟨z, List.mem_cons_of_mem _ hz, hfz⟩
          | ok ys =>
              rw [hxs] at h
              cases h

/-- Operations that can only fail in one way fail together as soon as one of them does. -/
theorem mapM_eq_ite {f : α → Except ε β} {P : β → Prop} [DecidablePred P] {e : ε} {xs : List α}
    {ys : List β} (h : List.Forall₂ (fun x y => f x = if P y then .ok y else .error e) xs ys) :
    xs.mapM f = if ∀ y ∈ ys, P y then .ok ys else .error e := by
  induction h with
  | nil => simp [pure, Except.pure]
  | @cons x y xs ys hxy _ ih =>
      have hall : (∀ z ∈ y :: ys, P z) ↔ P y ∧ ∀ z ∈ ys, P z := List.forall_mem_cons
      rw [List.mapM_cons, hxy, ih]
      by_cases hy : P y
      · rw [if_pos hy]
        by_cases hys : ∀ z ∈ ys, P z
        · rw [if_pos hys, if_pos (hall.2 ⟨hy, hys⟩)]
          rfl
        · rw [if_neg hys, if_neg fun hz => hys (hall.1 hz).2]
          rfl
      · rw [if_neg hy, if_neg fun hz => hy (hall.1 hz).1]
        rfl

/-- The error of an operation that failed. -/
def error? : Except ε α → Option ε
  | .ok _ => none
  | .error e => some e

theorem error?_eq_none_iff {x : Except ε α} : error? x = none ↔ ∃ a, x = .ok a := by
  cases x <;> simp [error?]

theorem error?_eq_some_iff {x : Except ε α} {e : ε} : error? x = some e ↔ x = .error e := by
  cases x <;> simp [error?]

theorem error?_map (f : α → β) (x : Except ε α) : error? (x.map f) = error? x := by
  cases x <;> rfl

/-- Of two operations that do not depend on each other the first one that failed counts. -/
theorem error?_bind_map {γ : Type} (f : α → β → γ) (x : Except ε α) (y : Except ε β) :
    error? (x.bind fun a => y.map (f a)) = (error? x).or (error? y) := by
  cases x with
  | error e => rfl
  | ok a => exact error?_map (f a) y

/-- Changing the error does not meet what is done with a result. -/
theorem mapError_map {ε' : Type} (u : ε → ε') (f : α → β) (x : Except ε α) :
    (x.map f).mapError u = (x.mapError u).map f := by
  cases x <;> rfl

/-- The first error of a list of operations is changed as it arises. -/
theorem mapError_mapM {ε' : Type} (u : ε → ε') (f : α → Except ε β) (xs : List α) :
    (xs.mapM f).mapError u = xs.mapM fun x => (f x).mapError u := by
  induction xs with
  | nil => rfl
  | cons x xs ih =>
      rw [List.mapM_cons, List.mapM_cons, ← ih]
      cases f x with
      | error e => rfl
      | ok y => cases xs.mapM f <;> rfl

theorem exists_of_mem_right {R : α → β → Prop} {xs : List α} {ys : List β}
    (h : List.Forall₂ R xs ys) {y : β} (hy : y ∈ ys) : ∃ x ∈ xs, R x y := by
  induction h with
  | nil => exact absurd hy List.not_mem_nil
  | cons hxy _ ih =>
      rcases List.mem_cons.1 hy with rfl | hy
      · exact ⟨_, List.mem_cons_self, hxy⟩
      · obtain ⟨x, hx, hr⟩ := ih hy
        exact ⟨x, List.mem_cons_of_mem _ hx, hr⟩

theorem exists_of_mem_left {R : α → β → Prop} {xs : List α} {ys : List β}
    (h : List.Forall₂ R xs ys) {x : α} (hx : x ∈ xs) : ∃ y ∈ ys, R x y :=
  exists_of_mem_right h.flip hx

theorem exists_append_of_mem_left {R : α → β → Prop} {xs : List α} {ys : List β}
    (h : List.Forall₂ R xs ys) {x : α} (hx : x ∈ xs) :
    ∃ xs₁ xs₂ y ys₁ ys₂, xs = xs₁ ++ x :: xs₂ ∧ ys = ys₁ ++ y :: ys₂ ∧
      List.Forall₂ R xs₁ ys₁ ∧ R x y ∧ List.Forall₂ R xs₂ ys₂ := by
  induction h with
  | nil => exact absurd hx List.not_mem_nil
  | @cons z w zs ws hzw hrest ih =>
      rcases List.mem_cons.1 hx with rfl | hx
      · exact ⟨[], zs, w, [], ws, rfl, rfl, .nil, hzw, hrest⟩
      · obtain ⟨xs₁, xs₂, y, ys₁, ys₂, rfl, rfl, hbefore, hxy, hafter⟩ := ih hx
        exact ⟨z :: xs₁, xs₂, y, w :: ys₁, ys₂, rfl, rfl, .cons hzw hbefore, hxy, hafter⟩

theorem exists_forall₂_iff {R : α → β → Prop} {xs : List α} :
    (∃ ys, List.Forall₂ R xs ys) ↔ ∀ x ∈ xs, ∃ y, R x y := by
  induction xs with
  | nil => simp
  | cons x xs ih =>
      simp only [List.forall_mem_cons, ← ih, List.forall₂_cons_left_iff]
      constructor
      · rintro ⟨_, y, ys, hy, hys, rfl⟩
        exact ⟨⟨y, hy⟩, ys, hys⟩
      · rintro ⟨⟨y, hy⟩, ys, hys⟩
        exact ⟨y :: ys, y, ys, hy, hys, rfl⟩

theorem exists_getElem?_right {R : α → β → Prop} {xs : List α} {ys : List β}
    (h : List.Forall₂ R xs ys) {i : Nat} {x : α} (hx : xs[i]? = some x) :
    ∃ y, ys[i]? = some y ∧ R x y := by
  induction h generalizing i with
  | nil => simp at hx
  | @cons _ y _ _ hxy _ ih =>
      cases i with
      | zero =>
          obtain rfl := Option.some.inj hx
          exact ⟨y, rfl, hxy⟩
      | succ i => exact ih hx

end TreePaths.Outcome
