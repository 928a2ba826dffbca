import TreePaths.Proofs.Keymap.Parse
import TreePaths.Proofs.Path.Assembly
import TreePaths.Proofs.Path.Significant

/-!
# The limit of nesting

What a text is read as does not depend on the limit. Within a limit that is too small for one of its
paths it is not read, and the error then is that of the limit, for every check that does not count
brackets has the same outcome at every limit (`Reads.ofAlternative_eq_ite`). A list of steps keeps
to the same limit as the text of its path.
-/

namespace TreePaths

namespace Path

/-- What an alternative is read as within one limit it is read as within every other, as long as no
bracket is too deep for that. -/
theorem Reads.ofAlternative_eq_ite {room : Nat} {cs : List Char} {p : Option Path}
    (h : Reads room cs p) (hcs : Brackets.span? 0 cs = some 0) (limit d : Nat) :
    ofAlternative limit d cs =
      if ∀ q ∈ p, q.nesting ≤ d then .ok p else .error (.tooDeep limit) := by
  induction h generalizing d with
  | @bare room cs head hopen hhead =>
      have hread : Reads d cs head.path? := .bare hopen hhead
      rw [hread.ofAlternative_eq, if_pos fun q hq => (hread.canonical hcs q hq).2]
  | @push room cs text inside head alts htext hopen hhead hone halts hnone =>
      have hread : Reads d cs (some (head.before Path.push)) :=
        .push htext hopen hhead hone halts hnone
      rw [hread.ofAlternative_eq, if_pos fun q hq => (hread.canonical hcs q hq).2]
  | @each room cs text inside inner head alts p htext hopen hhead hone halts hinner hp ih =>
      have hspan := span?_of_significant halts hinner
      -- The interior is significant, so a path is read there, and it adds a level to this one.
      have hsig : isSignificant inner = true := by
        have hmem : inner ∈ alts.filter isSignificant := by simp [hinner]
        exact (List.mem_filter.1 hmem).2
      have hsome := hp.isSome_eq hspan
      rw [hsig, Option.isSome_iff_exists] at hsome
      obtain ⟨q, rfl⟩ := hsome
      rw [htext, ofAlternative_bracketed hopen halts]
      simp only [hhead, if_neg (Nat.not_lt.2 hone), hinner, Option.map_some, Option.getD_some,
        Option.mem_def, Option.some.injEq, forall_eq', Head.before, nesting_under, nesting]
      cases d with
      | zero => rfl
      | succ d =>
          simp only [ih hspan, Option.mem_def, Option.some.injEq, forall_eq',
            Nat.add_le_add_iff_right]
          split <;> rfl

end Path

namespace Keymap

/-- What a text is read as within one limit it is read as within every other, as long as no bracket
is too deep for that. -/
theorem parse_eq_ite {text : String} {k : Keymap} {o : PathOptions} (h : parse text o = .ok k)
    (d : Nat) :
    parse text ⟨d⟩ = if ∀ p ∈ k.paths, p.nesting ≤ d then .ok k else .error (.tooDeep d) := by
  obtain ⟨alts, found, halts, hfound, rfl⟩ := parse_eq_ok_iff.1 h
  have hspan := (Brackets.alternatives?_eq_some_iff.1 halts).2.1
  have hread : List.Forall₂ (fun a p => Path.ofAlternative d d a =
      if ∀ q ∈ p, q.nesting ≤ d then .ok p else .error (.tooDeep d)) alts found :=
    ((List.forall₂_and_left _ _).2 ⟨hspan, hfound⟩).imp
      fun a p ⟨hs, hp⟩ => hp.ofAlternative_eq_ite hs d d
  have hpaths : (∀ p ∈ found.filterMap id, p.nesting ≤ d) ↔
      ∀ r ∈ found, ∀ q ∈ r, q.nesting ≤ d := by
    simp only [List.mem_filterMap, id_eq, Option.mem_def]
    exact ⟨fun h r hr q hq => h q ⟨r, hr, hq⟩, fun h p ⟨r, hr, hp⟩ => h r hr p hp⟩
  rw [parse_eq_of_alternatives? halts, Outcome.mapM_eq_ite hread]
  simp only [hpaths]
  split <;> rfl

/-- The limit of nesting is exact. A text that is read within a limit is read alike within a smaller
one, unless one of its paths is nested too deeply for that, which then is the error; and it is read
alike within a larger one. Steps in order are those of a path, and the same holds for them. -/
theorem parse_limit :
    (∀ text k d D, d ≤ D → parse text ⟨D⟩ = .ok k →
      parse text ⟨d⟩ = if ∀ p ∈ k.paths, p.nesting ≤ d then .ok k else .error (.tooDeep d)) ∧
    (∀ text k d D, d ≤ D → parse text ⟨d⟩ = .ok k → parse text ⟨D⟩ = .ok k) ∧
    ∀ steps, Step.InOrder steps → ∃ p : Path, p.steps = steps ∧ ∀ d,
      Path.ofSteps d steps = if p.nesting ≤ d then .ok p else .error (.tooDeep d) := by
  refine ⟨fun text k d D _ h => parse_eq_ite h d, fun text k d D hd h => ?_, fun steps h => ?_⟩
  · have hpaths : ∀ p ∈ k.paths, p.nesting ≤ D := fun p hp =>
      (canonical_of_parse h p hp).2.trans hd
    rw [parse_eq_ite h D, if_pos hpaths]
  · obtain ⟨p, rfl⟩ := h.exists_path
    exact ⟨p, rfl, fun d => Path.ofSteps_steps d p⟩

theorem parse_limit_nested :
    parse "a[b[c]|]|d:[]" ⟨2⟩ =
        .ok ⟨[.down "a" (.each (.down "b" (.each (.key "c")))), .down "d" .push]⟩ ∧
      parse "a[b[c]|]|d:[]" ⟨1⟩ = .error (.tooDeep 1) ∧
      parse "a[b|]" ⟨1⟩ = .ok ⟨[.down "a" (.each (.key "b"))]⟩ ∧
      parse "a[b|]" ⟨2⟩ = .ok ⟨[.down "a" (.each (.key "b"))]⟩ ∧
      Step.InOrder [.key "a", .each [.each [.keys ["b", "c"]]]] ∧
      ∃ p : Path, p.steps = [.key "a", .each [.each [.keys ["b", "c"]]]] ∧ ∀ d,
        Path.ofSteps d [.key "a", .each [.each [.keys ["b", "c"]]]] =
          if p.nesting ≤ d then .ok p else .error (.tooDeep d) := by
  obtain ⟨hsmaller, hlarger, hsteps⟩ := parse_limit
  have hdeep : parse "a[b[c]|]|d:[]" ⟨2⟩ =
      .ok ⟨[.down "a" (.each (.down "b" (.each (.key "c")))), .down "d" .push]⟩ := by
    decide +kernel
  have hflat : parse "a[b|]" ⟨1⟩ = .ok ⟨[.down "a" (.each (.key "b"))]⟩ := by decide +kernel
  have horder : Step.InOrder [.key "a", .each [.each [.keys ["b", "c"]]]] := by
    refine .mk ["a"] _ fun inner h => ?_
    cases h
    refine .mk [] _ fun inner h => ?_
    cases h
    exact .mk [] _ fun inner h => by cases h
  exact ⟨hdeep, hsmaller _ _ 1 2 (by decide) hdeep, hflat, hlarger _ _ 1 2 (by decide) hflat,
    horder, hsteps _ horder⟩

end Keymap

end TreePaths
