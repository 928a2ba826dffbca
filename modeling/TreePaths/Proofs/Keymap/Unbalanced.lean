import TreePaths.Proofs.Keymap.Parse
import TreePaths.Proofs.Path.Trace

/-!
# Brackets without a partner

Whether the brackets of a text pair up is decided once, before any part of the text is read. Every
text that is handed down from there is balanced and not cut: the alternatives of the text, and the
one significant part of an interior. So a bracket in it finds its partner, its interior is balanced
again, and the checks further down that could complain of brackets never do. A text is refused for
its brackets if and only if it is not balanced, whatever else is wrong with it
(`parse_unbalanced_iff`).

`parseTrace` reads a keymap and lists what is handed down, which is all visited, and all that is
visited if the keymap is read (`mem_parseTrace_iff`).
-/

namespace TreePaths

namespace Path

theorem Visited.span?_eq {text a : List Char} (h : Visited text a) :
    Brackets.span? 0 a = some 0 := by
  cases h with
  | outer halts ha => exact (Brackets.alternatives?_eq_some_iff.1 halts).2.1 a ha
  | inner _ _ halts hb => exact span?_of_significant halts hb

/-- The first bracket of a text that is not cut finds its partner, and on the way to it no bracket
is closed that has not been opened. -/
theorem exists_interior?_of_span? {head rest : List Char} (hopen : '[' ∉ head)
    (h : Brackets.span? 0 (head ++ '[' :: rest) = some 0) :
    ∃ inside after, Brackets.interior? 0 rest = some (inside, after) ∧
      ∀ xs, xs <+: '[' :: (inside ++ [']']) → xs.count ']' ≤ xs.count '[' := by
  have hrest : Brackets.depth? 1 rest = some 0 := by
    have hhead := Brackets.span?_of_plain (span?_head hopen h) 0
    rw [Brackets.span?_append, hhead, Option.bind_some] at h
    exact Brackets.depth?_of_span? h
  obtain ⟨inside, after, hi⟩ := Brackets.exists_interior?_of_depth? hrest
  have hd := (Brackets.interior?_eq_some_iff.1 hi).1
  have hbracketed := Brackets.depth?_of_span? (Brackets.span?_bracketed hd)
  exact ⟨inside, after, hi, (Brackets.balanced_iff.2 hbracketed).1⟩

/-- The interior of a bracket has alternatives. -/
theorem exists_alternatives?_of_cut {a head inside : List Char}
    (h : cut a = .ok (head, some inside)) : ∃ alts, Brackets.alternatives? 0 inside = some alts :=
  Option.isSome_iff_exists.1 (Brackets.isSome_alternatives?_iff.2 (cut_eq_ok_some_iff.1 h).2.1)

theorem cut_ne_unbalanced {cs : List Char} (hcs : Brackets.span? 0 cs = some 0) (u : String) :
    cut cs ≠ .error (.unbalanced u) := by
  by_cases hopen : '[' ∈ cs
  · obtain ⟨head, rest, rfl, hhead⟩ := List.eq_append_cons_of_mem hopen
    obtain ⟨inside, after, hi, -⟩ := exists_interior?_of_span? hhead hcs
    rw [cut, Brackets.atBracket_append hhead]
    cases after <;> simp [hi]
  · rw [cut_eq_ok_none_iff.2 ⟨hopen, rfl⟩]
    simp

/-- An alternative that is not cut is never refused for its brackets. -/
theorem ofAlternative_ne_unbalanced {limit room : Nat} {cs : List Char}
    (hcs : Brackets.span? 0 cs = some 0) (u : String) :
    ofAlternative limit room cs ≠ .error (.unbalanced u) := by
  fun_induction ofAlternative limit room cs with
  | case1 room cs e hcut =>
      intro he
      obtain rfl := Except.error.inj he
      exact cut_ne_unbalanced hcs u hcut
  | case5 room cs text head inside hhead hone halts hcut =>
      obtain ⟨alts, h⟩ := exists_alternatives?_of_cut hcut
      rw [halts] at h
      cases h
  | case8 cs text head inside hhead hone alts halts inner hinner room hcut ih =>
      rw [ne_eq, Outcome.map_eq_error_iff]
      exact ih (span?_of_significant halts hinner)
  | _ => simp

end Path

namespace Keymap

/-- A text that is balanced may be refused for something else, but not for its brackets. -/
theorem parse_ne_unbalanced {text : String} (h : Brackets.Balanced text.toList) (o : PathOptions)
    (u : String) : parse text o ≠ .error (.unbalanced u) := by
  have halts := Brackets.alternatives?_eq_some_outerParts_iff.2 ⟨h, rfl⟩
  rw [parse_eq_of_alternatives? halts, ne_eq, Outcome.map_eq_error_iff]
  intro he
  obtain ⟨a, ha, hread⟩ := Outcome.exists_of_mapM_eq_error he
  have hspan := (Brackets.alternatives?_eq_some_iff.1 halts).2.1 a ha
  exact Path.ofAlternative_ne_unbalanced hspan u hread

/-- A text that is not balanced is refused for that, with the whole text as the culprit. -/
theorem parse_of_not_balanced {text : String} (h : ¬Brackets.Balanced text.toList)
    (o : PathOptions) : parse text o = .error (.unbalanced text) := by
  rw [Brackets.balanced_iff, ← Brackets.isSome_alternatives?_iff,
    Option.not_isSome_iff_eq_none] at h
  rw [parse, h]

/-- Reads a keymap, and lists the texts that are read as alternatives on the way. -/
def parseTrace (text : String) (o : PathOptions) :
    List (List Char) × Except GrammarError Keymap :=
  match Brackets.alternatives? 0 text.toList with
  | none => ([], .error (.unbalanced text))
  | some alternatives =>
    let run := Path.traceAll o.maxDepth alternatives
    (run.1, run.2.map fun paths => ⟨paths.filterMap id⟩)

theorem snd_parseTrace (text : String) (o : PathOptions) :
    (parseTrace text o).2 = parse text o := by
  cases halts : Brackets.alternatives? 0 text.toList with
  | none => rw [parseTrace, parse, halts]
  | some alts => rw [parse_eq_of_alternatives? halts, ← Path.snd_traceAll, parseTrace, halts]

theorem visited_of_mem_parseTrace {text : String} {o : PathOptions} {a : List Char}
    (ha : a ∈ (parseTrace text o).1) : Path.Visited text.toList a := by
  unfold parseTrace at ha
  cases halts : Brackets.alternatives? 0 text.toList with
  | none =>
      rw [halts] at ha
      cases ha
  | some alts =>
      rw [halts] at ha
      exact Path.Visited.of_mem_traceAll (fun _ hcs => .outer halts hcs) ha

/-- A text that is read is read through all the texts that reading it may come to. -/
theorem mem_parseTrace_iff {text : String} {o : PathOptions} {k : Keymap}
    (h : parse text o = .ok k) (a : List Char) :
    a ∈ (parseTrace text o).1 ↔ Path.Visited text.toList a := by
  obtain ⟨alts, found, halts, hfound, -⟩ := parse_eq_ok_iff.1 h
  refine ⟨visited_of_mem_parseTrace, fun ha => ?_⟩
  rw [parseTrace, halts]
  exact ha.mem_traceAll halts hfound

/-- A text is refused for its brackets just if it is not balanced, and the error quotes it. All
texts that are read on the way are visited ones. In every alternative that reading may come to, the
first bracket finds its partner without a closing bracket too many on the way, and an interior that
has been found is cut into alternatives. -/
theorem parse_unbalanced_iff (text : String) (o : PathOptions) :
    (∀ u, parse text o = .error (.unbalanced u) ↔
      ¬Brackets.Balanced text.toList ∧ u = text) ∧
    ((parseTrace text o).2 = parse text o ∧
      ∀ a ∈ (parseTrace text o).1, Path.Visited text.toList a) ∧
    ∀ a, Path.Visited text.toList a →
      (∀ head rest, Brackets.atBracket a = (head, some rest) →
        ∃ inside after, Brackets.interior? 0 rest = some (inside, after) ∧
          ∀ xs, xs <+: '[' :: (inside ++ [']']) → xs.count ']' ≤ xs.count '[') ∧
      ∀ head inside, Path.cut a = .ok (head, some inside) →
        ∃ alts, Brackets.alternatives? 0 inside = some alts := by
  refine ⟨fun u => ?_, ⟨snd_parseTrace text o, fun a => visited_of_mem_parseTrace⟩,
    fun a ha => ⟨fun head rest hat => ?_, fun head inside hcut => ?_⟩⟩
  · by_cases h : Brackets.Balanced text.toList
    · simp [parse_ne_unbalanced h o u, h]
    · simp [parse_of_not_balanced h o, h, eq_comm]
  · obtain ⟨hopen, rfl⟩ := Brackets.atBracket_eq_some_iff.1 hat
    exact Path.exists_interior?_of_span? hopen ha.span?_eq
  · exact Path.exists_alternatives?_of_cut hcut

theorem parse_unbalanced_iff_inner :
    ¬Brackets.Balanced "a,b:c|d]e[".toList ∧
      parse "a,b:c|d]e[" ⟨1⟩ = .error (.unbalanced "a,b:c|d]e[") ∧
      (parseTrace "x|k[|a[b]|]" ⟨2⟩).1 =
        ["x".toList, "k[|a[b]|]".toList, "a[b]".toList, "b".toList] ∧
      Path.Visited "x|k[|a[b]|]".toList "a[b]".toList ∧
      (∃ inside after, Brackets.interior? 0 "b]".toList = some (inside, after) ∧
        ∀ xs, xs <+: '[' :: (inside ++ [']']) → xs.count ']' ≤ xs.count '[') ∧
      ∃ alts, Brackets.alternatives? 0 "b".toList = some alts := by
  have hunbalanced : ¬Brackets.Balanced "a,b:c|d]e[".toList := by
    rw [Brackets.balanced_iff]
    decide +kernel
  have htrace : (parseTrace "x|k[|a[b]|]" ⟨2⟩).1 =
      ["x".toList, "k[|a[b]|]".toList, "a[b]".toList, "b".toList] := by decide +kernel
  obtain ⟨-, ⟨-, hvisited⟩, hread⟩ := parse_unbalanced_iff "x|k[|a[b]|]" ⟨2⟩
  have ha : Path.Visited "x|k[|a[b]|]".toList "a[b]".toList := hvisited _ (by simp [htrace])
  obtain ⟨hmatch, hsplit⟩ := hread _ ha
  exact ⟨hunbalanced, ((parse_unbalanced_iff _ _).1 _).2 ⟨hunbalanced, rfl⟩, htrace, ha,
    hmatch "a".toList _ (by decide +kernel), hsplit "a".toList _ (by decide +kernel)⟩

end Keymap

end TreePaths
