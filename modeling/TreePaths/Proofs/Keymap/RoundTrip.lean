import TreePaths.Proofs.Keymap.Parse
import TreePaths.Proofs.Path.Assembly

/-!
# The text of a keymap

The text of a keymap of canonical paths spells that keymap, and reading yields no others. So the
text of a keymap that has been read is read as the same keymap, whatever stray delimiters the first
text had.

A path that is assembled by hand need not be canonical, as any name is accepted in it. Its text is
read as the same path if and only if it is (`canonical_iff_parse_text`).
-/

namespace TreePaths

namespace Keymap

/-- The text of a keymap of canonical paths spells that keymap. -/
theorem parse_text_of_canonical {o : PathOptions} {k : Keymap}
    (h : ∀ p ∈ k.paths, p.Canonical ∧ p.nesting ≤ o.maxDepth) : parse k.text o = .ok k := by
  obtain ⟨paths⟩ := k
  rw [parse_eq_ok_iff, text, String.toList_ofList]
  by_cases hne : paths = []
  · subst hne
    exact ⟨[[]], [none], rfl, .cons (Path.reads_nil _) .nil, rfl⟩
  · refine ⟨paths.map Path.chars, paths.map some, ?_, ?_, by simp⟩
    · refine Brackets.alternatives?_intercalate (by simpa using hne) ?_
      exact List.forall_mem_map.2 fun p hp => Path.span?_chars (h p hp).1
    · rw [List.forall₂_map_left_iff, List.forall₂_map_right_iff, List.forall₂_same]
      exact fun p hp => Path.reads_chars (h p hp).1 (h p hp).2

/-- The text of a keymap that has been read is read as that keymap. -/
theorem parse_text (text : String) (o : PathOptions) (k : Keymap) (h : parse text o = .ok k) :
    parse k.text o = .ok k :=
  parse_text_of_canonical (canonical_of_parse h)

theorem parse_text_stray_delimiters :
    parse "a,|::||b[c[,d,e]|]|[[f]]|g:[]" ⟨2⟩ =
        .ok ⟨[.key "a", .down "b" (.each (.down "c" (.each (.keys ["d", "e"])))),
          .each (.each (.key "f")), .down "g" .push]⟩ ∧
      parse "a|b[c[d,e]]|[[f]]|g:[]" ⟨2⟩ =
        .ok ⟨[.key "a", .down "b" (.each (.down "c" (.each (.keys ["d", "e"])))),
          .each (.each (.key "f")), .down "g" .push]⟩ := by
  have h : parse "a,|::||b[c[,d,e]|]|[[f]]|g:[]" ⟨2⟩ =
      .ok ⟨[.key "a", .down "b" (.each (.down "c" (.each (.keys ["d", "e"])))),
        .each (.each (.key "f")), .down "g" .push]⟩ := by decide +kernel
  have htext : text ⟨[.key "a", .down "b" (.each (.down "c" (.each (.keys ["d", "e"])))),
      .each (.each (.key "f")), .down "g" .push]⟩ = "a|b[c[d,e]]|[[f]]|g:[]" := by decide +kernel
  have hread := parse_text _ _ _ h
  rw [htext] at hread
  exact ⟨h, hread⟩

theorem text_ofPath (p : Path) : (ofPath p).text = p.text := by
  rw [text, ofPath, List.map_singleton, List.intercalate_singleton]
  rfl

/-- Paths that are read are canonical, and their steps are accepted within the same limit. Of the
paths whose steps are accepted just the canonical ones are read back from their text. -/
theorem canonical_iff_parse_text (o : PathOptions) :
    (∀ text k, parse text o = .ok k →
      ∀ p ∈ k.paths, p.Canonical ∧ Path.ofSteps o.maxDepth p.steps = .ok p) ∧
    ∀ steps p, Path.ofSteps o.maxDepth steps = .ok p →
      p.steps = steps ∧ (parse p.text o = .ok (ofPath p) ↔ p.Canonical) := by
  constructor
  · intro text k h p hp
    obtain ⟨hc, hn⟩ := canonical_of_parse h p hp
    exact ⟨hc, Path.ofSteps_eq_ok_iff.2 ⟨rfl, hn⟩⟩
  · intro steps p h
    obtain ⟨hsteps, hn⟩ := Path.ofSteps_eq_ok_iff.1 h
    refine ⟨hsteps, fun hread => ?_, fun hc => ?_⟩
    · exact (canonical_of_parse hread p List.mem_cons_self).1
    · rw [← text_ofPath]
      exact parse_text_of_canonical (List.forall_mem_singleton.2 ⟨hc, hn⟩)

theorem canonical_iff_parse_text_assembled :
    parse "a::b[[c,,d]]" ⟨2⟩ = .ok ⟨[.down "a" (.down "b" (.each (.each (.keys ["c", "d"]))))]⟩ ∧
      Path.ofSteps 2 [.key "a", .key "b", .each [.each [.keys ["c", "d"]]]] =
        .ok (.down "a" (.down "b" (.each (.each (.keys ["c", "d"]))))) ∧
      Path.ofSteps 2 [.key "a,b", .each [.keys ["c"]]] =
        .ok (.down "a,b" (.each (.keys ["c"]))) ∧
      parse (Path.down "a,b" (.each (.keys ["c"]))).text ⟨2⟩ ≠
        .ok (ofPath (.down "a,b" (.each (.keys ["c"])))) := by
  obtain ⟨hread, hback⟩ := canonical_iff_parse_text ⟨2⟩
  have h : parse "a::b[[c,,d]]" ⟨2⟩ =
      .ok ⟨[.down "a" (.down "b" (.each (.each (.keys ["c", "d"]))))]⟩ := by decide +kernel
  have hsteps : Path.ofSteps 2 [.key "a,b", .each [.keys ["c"]]] =
      .ok (.down "a,b" (.each (.keys ["c"]))) := rfl
  refine ⟨h, (hread _ _ h _ List.mem_cons_self).2, hsteps, fun hparse => ?_⟩
  -- The list of a single name is not what its text is read as.
  have hc := (hback _ _ hsteps).2.1 hparse
  exact absurd hc.2.1 (by decide)

end Keymap

end TreePaths
