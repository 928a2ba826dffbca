import TreePaths.Path.Assembly
import TreePaths.Proofs.Outcome

/-!
# Which lists of steps are paths

A list of steps that is accepted spells a path with just these steps, and every path is spelled by
its steps as long as brackets are not nested too deeply in it (`ofSteps_eq_ok_iff`). The limit of
nesting is the only one: where nothing but keys stands before an end, a list of steps is the list of
some path, and it is refused only for its depth (`ofSteps_steps`).
-/

namespace TreePaths

theorem Path.steps_under (names : List String) (p : Path) :
    (Path.under names p).steps = names.map Step.key ++ p.steps := by
  induction names with
  | nil => rfl
  | cons name names ih =>
      rw [Path.under_cons, Path.steps, ih, List.map_cons, List.cons_append]

namespace Step

/-- Induction over lists of steps, in which a key may use the statement for the steps after it, and
a bracket for the steps in it. -/
@[elab_as_elim] theorem inductionAll {P : List Step → Prop} (nil : P [])
    (key : ∀ name rest, P rest → P (key name :: rest))
    (keys : ∀ names rest, P (keys names :: rest))
    (push : ∀ rest, P (push :: rest))
    (each : ∀ inner rest, P inner → P (each inner :: rest)) (steps : List Step) :
    P steps :=
  @Step.rec_1 (fun s => ∀ rest, P rest → P (s :: rest)) P key
    (fun names rest _ => keys names rest) (fun rest _ => push rest)
    (fun inner hinner rest _ => each inner rest hinner) nil (fun _ rest hs => hs rest) steps

variable {limit room : Nat}

theorem pathAll_singleton (s : Step) : pathAll limit room [s] = s.path limit room := rfl

theorem pathAll_cons_key (name : String) {rest : List Step} (h : rest ≠ []) :
    pathAll limit room (key name :: rest) = (pathAll limit room rest).map (.down name) := by
  cases rest with
  | nil => exact absurd rfl h
  | cons s rest => rfl

theorem pathAll_cons_of_not_descends {s : Step} (hs : s.descends = false) {rest : List Step}
    (h : rest ≠ []) :
    pathAll limit room (s :: rest) = .error (.stepAfterEnd (String.ofList s.chars)) := by
  cases rest with
  | nil => exact absurd rfl h
  | cons r rest =>
      cases s with
      | key name => cases hs
      | _ => rfl

/-- Nothing follows a step that does not descend. -/
theorem eq_nil_of_pathAll {s : Step} (hs : s.descends = false) {rest : List Step} {p : Path}
    (h : pathAll limit room (s :: rest) = .ok p) : rest = [] := by
  by_contra hrest
  rw [pathAll_cons_of_not_descends hs hrest] at h
  cases h

theorem pathAll_steps {p : Path} (h : p.nesting ≤ room) : pathAll limit room p.steps = .ok p := by
  induction p generalizing room with
  | key name => rfl
  | keys names => rfl
  | push => rfl
  | each inner ih =>
      cases room with
      | zero => cases h
      | succ room =>
          rw [Path.steps, pathAll_singleton, path, ih (Nat.le_of_succ_le_succ h)]
          rfl
  | down name rest ih =>
      rw [Path.steps, pathAll_cons_key name rest.steps_ne_nil, ih h]
      rfl

/-- The steps of a path are refused for their depth as soon as one level is missing. -/
theorem pathAll_steps_of_lt {p : Path} (h : room < p.nesting) :
    pathAll limit room p.steps = .error (.tooDeep limit) := by
  induction p generalizing room with
  | key name => cases h
  | keys names => cases h
  | push => cases h
  | each inner ih =>
      rw [Path.steps, pathAll_singleton]
      cases room with
      | zero => rfl
      | succ room =>
          rw [path, ih (Nat.lt_of_succ_lt_succ h)]
          rfl
  | down name rest ih =>
      rw [Path.steps, pathAll_cons_key name rest.steps_ne_nil, ih h]
      rfl

theorem steps_of_pathAll {steps : List Step} {p : Path} (h : pathAll limit room steps = .ok p) :
    p.steps = steps ∧ p.nesting ≤ room := by
  induction steps using inductionAll generalizing room p with
  | nil => cases h
  | key name rest ih =>
      by_cases hrest : rest = []
      · subst hrest
        cases h
        exact ⟨rfl, Nat.zero_le _⟩
      · rw [pathAll_cons_key name hrest, Outcome.map_eq_ok_iff] at h
        obtain ⟨q, hq, rfl⟩ := h
        obtain ⟨rfl, hn⟩ := ih hq
        exact ⟨rfl, hn⟩
  | keys names rest =>
      obtain rfl := eq_nil_of_pathAll rfl h
      cases h
      exact ⟨rfl, Nat.zero_le _⟩
  | push rest =>
      obtain rfl := eq_nil_of_pathAll rfl h
      cases h
      exact ⟨rfl, Nat.zero_le _⟩
  | each inner rest ih =>
      obtain rfl := eq_nil_of_pathAll rfl h
      rw [pathAll_singleton] at h
      cases room with
      | zero => cases h
      | succ room =>
          rw [path, Outcome.map_eq_ok_iff] at h
          obtain ⟨q, hq, rfl⟩ := h
          obtain ⟨rfl, hn⟩ := ih hq
          exact ⟨rfl, Nat.succ_le_succ hn⟩

/-- Steps of which only the last may be another one than a key, inside of brackets as well. -/
inductive InOrder : List Step → Prop
  | mk (names : List String) (last : Step)
      (hlast : ∀ inner, last = each inner → InOrder inner) : InOrder (names.map key ++ [last])

/-- Steps in order are those of a path. -/
theorem InOrder.exists_path {steps : List Step} (h : InOrder steps) :
    ∃ p : Path, p.steps = steps := by
  induction h with
  | mk names last hlast ih =>
      obtain ⟨p, hp⟩ : ∃ p : Path, p.steps = [last] := by
        cases last with
        | key name => exact ⟨.key name, rfl⟩
        | keys names => exact ⟨.keys names, rfl⟩
        | push => exact ⟨.push, rfl⟩
        | each inner =>
            obtain ⟨q, rfl⟩ := ih inner rfl
            exact ⟨.each q, rfl⟩
      exact ⟨Path.under names p, by rw [Path.steps_under, hp]⟩

end Step

/-- The lists of steps that are accepted are those of the paths whose brackets are not nested too
deeply, and each spells its path. -/
theorem Path.ofSteps_eq_ok_iff {limit : Nat} {steps : List Step} {p : Path} :
    Path.ofSteps limit steps = .ok p ↔ p.steps = steps ∧ p.nesting ≤ limit := by
  refine ⟨Step.steps_of_pathAll, ?_⟩
  rintro ⟨rfl, hn⟩
  exact Step.pathAll_steps hn

/-- The steps of a path spell it within every limit that its brackets keep to. -/
theorem Path.ofSteps_steps (limit : Nat) (p : Path) :
    Path.ofSteps limit p.steps = if p.nesting ≤ limit then .ok p else .error (.tooDeep limit) := by
  split
  · rename_i hn
    exact Step.pathAll_steps hn
  · rename_i hn
    exact Step.pathAll_steps_of_lt (Nat.not_le.1 hn)

end TreePaths
