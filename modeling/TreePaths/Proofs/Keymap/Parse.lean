import TreePaths.Keymap.Basic
import TreePaths.Proofs.Path.Language
import TreePaths.Proofs.Path.Names

/-!
# Reading a keymap

A text that is read is cut into alternatives, and its keymap consists of what those are read as,
without the ones that name nothing. All paths of a keymap that is read are canonical.

`exists_parse_iff` says which texts are read: the balanced ones whose outer parts all belong to the
language of alternatives. `names_of_parse` says that reading one loses nothing but delimiters, since
the names of the keymap are the words of the text.
-/

namespace TreePaths

namespace Keymap

/-- The keymap of alternatives that are read one after another. -/
theorem parse_eq_of_alternatives? {text : String} {alts : List (List Char)}
    (h : Brackets.alternatives? 0 text.toList = some alts) (o : PathOptions) :
    parse text o = (alts.mapM (Path.ofAlternative o.maxDepth o.maxDepth)).map fun paths =>
      ⟨paths.filterMap id⟩ := by
  rw [parse, h]

/-- A keymap that is read consists of what its alternatives are read as. -/
theorem parse_eq_ok_iff {text : String} {o : PathOptions} {k : Keymap} :
    parse text o = .ok k ↔
      ∃ alts found, Brackets.alternatives? 0 text.toList = some alts ∧
        List.Forall₂ (Path.Reads o.maxDepth) alts found ∧ k = ⟨found.filterMap id⟩ := by
  have hreads : ∀ (alts : List (List Char)) (found : List (Option Path)),
      alts.mapM (Path.ofAlternative o.maxDepth o.maxDepth) = .ok found ↔
        List.Forall₂ (Path.Reads o.maxDepth) alts found := by
    intro alts found
    simp only [Outcome.mapM_eq_ok_iff, Path.ofAlternative_eq_ok_iff]
  unfold parse
  cases ha : Brackets.alternatives? 0 text.toList with
  | none => simp
  | some alts =>
      rw [Outcome.map_eq_ok_iff]
      constructor
      · rintro ⟨found, hfound, rfl⟩
        exact ⟨alts, found, rfl, (hreads alts found).1 hfound, rfl⟩
      · rintro ⟨alts', found, he, hfound, rfl⟩
        obtain rfl := Option.some.inj he
        exact ⟨found, (hreads alts found).2 hfound, rfl⟩

theorem canonical_of_parse {text : String} {o : PathOptions} {k : Keymap}
    (h : parse text o = .ok k) : ∀ p ∈ k.paths, p.Canonical ∧ p.nesting ≤ o.maxDepth := by
  obtain ⟨alts, found, halts, hfound, rfl⟩ := parse_eq_ok_iff.1 h
  intro p hp
  obtain ⟨r, hr, rfl⟩ : ∃ r ∈ found, r = some p := by simpa using hp
  obtain ⟨cs, hcs, hread⟩ := Outcome.exists_of_mem_right hfound hr
  exact hread.canonical ((Brackets.alternatives?_eq_some_iff.1 halts).2.1 cs hcs) p rfl

/-- A text is read if and only if it is balanced and all its outer parts are alternatives. -/
theorem exists_parse_iff (text : String) (o : PathOptions) :
    (∃ k, parse text o = .ok k) ↔
      Brackets.Balanced text.toList ∧
        ∀ a ∈ Brackets.outerParts text.toList, Path.IsAlternative o.maxDepth 0 a := by
  have hreads : ∀ {alts}, Brackets.alternatives? 0 text.toList = some alts → ∀ a ∈ alts,
      (Path.IsAlternative o.maxDepth 0 a ↔ ∃ p, Path.Reads o.maxDepth a p) := fun halts a ha =>
    Path.isAlternative_iff (Nat.zero_add _) ((Brackets.alternatives?_eq_some_iff.1 halts).2.1 a ha)
  constructor
  · rintro ⟨k, hk⟩
    obtain ⟨alts, found, halts, hfound, -⟩ := parse_eq_ok_iff.1 hk
    have hread := Outcome.exists_forall₂_iff.1 ⟨found, hfound⟩
    obtain ⟨hbalanced, rfl⟩ := Brackets.alternatives?_eq_some_outerParts_iff.1 halts
    exact ⟨hbalanced, fun a ha => (hreads halts a ha).2 (hread a ha)⟩
  · rintro ⟨hbalanced, hparts⟩
    have halts := Brackets.alternatives?_eq_some_outerParts_iff.2 ⟨hbalanced, rfl⟩
    obtain ⟨found, hfound⟩ := Outcome.exists_forall₂_iff.2 fun a ha =>
      (hreads halts a ha).1 (hparts a ha)
    exact ⟨_, parse_eq_ok_iff.2 ⟨_, found, halts, hfound, rfl⟩⟩

/-- The names of a keymap that is read are the words of the text. -/
theorem names_of_parse (text : String) (o : PathOptions) (k : Keymap) (h : parse text o = .ok k) :
    k.paths.flatMap Path.names = Path.words text.toList := by
  obtain ⟨alts, found, halts, hfound, rfl⟩ := parse_eq_ok_iff.1 h
  obtain ⟨-, hspan, hjoin⟩ := Brackets.alternatives?_eq_some_iff.1 halts
  have hbar : '|' ∈ Path.delimiters := by simp [Path.delimiters]
  rw [← hjoin, Path.words_intercalate hbar]
  exact Path.flatMap_names_filterMap hfound hspan

theorem names_of_parse_stray_delimiters :
    parse "é::x,|:,|b,[|c:[,d,,e,]|:]" ⟨2⟩ =
        .ok ⟨[.down "é" (.key "x"), .down "b" (.each (.down "c" (.each (.keys ["d", "e"]))))]⟩ ∧
      ["é", "x", "b", "c", "d", "e"] = Path.words "é::x,|:,|b,[|c:[,d,,e,]|:]".toList := by
  have h : parse "é::x,|:,|b,[|c:[,d,,e,]|:]" ⟨2⟩ =
      .ok ⟨[.down "é" (.key "x"), .down "b" (.each (.down "c" (.each (.keys ["d", "e"]))))]⟩ := by
    decide +kernel
  exact ⟨h, names_of_parse _ _ _ h⟩

end Keymap

end TreePaths
