import TreePaths.Proofs.Keymap.Parse
import TreePaths.Proofs.Path.Redundant

/-!
# Redundant delimiters in a keymap

A doubled colon, comma or bar, a colon on either side of an opening bracket and a colon behind a bar
may be written with one delimiter less, wherever they stand in a text: at any depth of brackets, and
also in a text that is not balanced. Both texts are read as the same keymap, or both fail for the
same reason (`parse_redundant`).
-/

namespace TreePaths

open TreePaths.Path (Looser LooserList ofAlternative)

namespace Keymap

/-- An alternative more that is empty names nothing, and one that has an idle delimiter more is read
alike. -/
theorem mapM_ofAlternative_of_looserList {as bs : List (List Char)} (h : LooserList as bs)
    (has : ∀ a ∈ as, Brackets.span? 0 a = some 0) (hbs : ∀ b ∈ bs, Brackets.span? 0 b = some 0)
    (limit : Nat) :
    ((as.mapM (ofAlternative limit limit)).mapError GrammarError.unquoted).map (List.filterMap id) =
      ((bs.mapM (ofAlternative limit limit)).mapError GrammarError.unquoted).map
        (List.filterMap id) := by
  rw [Outcome.mapError_mapM, Outcome.mapError_mapM]
  cases h with
  | @within before after a b h =>
      rw [List.mapM_append, List.mapM_append, List.mapM_cons, List.mapM_cons,
        h.ofAlternative_eq (has a (by simp)) (hbs b (by simp))]
  | between before after =>
      have hnil : ofAlternative limit limit [] = .ok none := (Path.reads_nil limit).ofAlternative_eq
      rw [List.mapM_append, List.mapM_append, List.mapM_cons, hnil]
      cases before.mapM fun a => (ofAlternative limit limit a).mapError GrammarError.unquoted with
      | error e => rfl
      | ok ps =>
          cases after.mapM fun a => (ofAlternative limit limit a).mapError
            GrammarError.unquoted with
          | error e => rfl
          | ok qs =>
              have hdrop : (ps ++ none :: qs).filterMap id = (ps ++ qs).filterMap id := by
                rw [List.filterMap_append, List.filterMap_append, List.filterMap_cons_none rfl]
              exact congrArg Except.ok hdrop

/-- A text is read alike with and without an idle delimiter. -/
theorem parse_eq_of_looser {s t : String} (h : Looser s.toList t.toList) (o : PathOptions) :
    (parse s o).mapError GrammarError.unquoted = (parse t o).mapError GrammarError.unquoted := by
  cases hbs : Brackets.alternatives? 0 t.toList with
  | none =>
      have has : Brackets.alternatives? 0 s.toList = none := by
        rcases h with ⟨l, c, r, hidle, hs, ht⟩
        have hdepth := hidle.depth?_eq 0
        rw [← hs, ← ht] at hdepth
        rw [← Option.not_isSome_iff_eq_none, Brackets.isSome_alternatives?_iff] at hbs ⊢
        rwa [hdepth]
      rw [parse, parse, has, hbs]
      rfl
  | some bs =>
      rcases Path.exists_looserList h hbs with ⟨as, has, hlooser⟩
      have hreads := mapM_ofAlternative_of_looserList hlooser
        (Brackets.alternatives?_eq_some_iff.1 has).2.1
        (Brackets.alternatives?_eq_some_iff.1 hbs).2.1 o.maxDepth
      have hmk : ∀ x : Except GrammarError (List (Option Path)),
          (x.map fun paths => (⟨paths.filterMap id⟩ : Keymap)).mapError GrammarError.unquoted =
            ((x.mapError GrammarError.unquoted).map (List.filterMap id)).map Keymap.mk := by
        intro x
        cases x <;> rfl
      rw [parse_eq_of_alternatives? has, parse_eq_of_alternatives? hbs, hmk, hmk, hreads]

/-- Delimiters of which one is redundant next to the other, and what remains without it. -/
def redundantDelimiters : List (String × String) :=
  [("::", ":"), (",,", ","), ("||", "|"), (":[", "["), ("[:", "["), ("|:", "|")]

theorem looser_of_redundant {x y : String} (h : (x, y) ∈ redundantDelimiters) (l r : String) :
    Looser (l ++ x ++ r).toList (l ++ y ++ r).toList := by
  -- Behind a delimiter the redundant one is the second, and before a bracket it is the first.
  have hbehind : ∀ d c : Char, (∀ p s, Path.Idle (p ++ [d]) c s) →
      Looser (l ++ String.ofList [d, c] ++ r).toList (l ++ String.ofList [d] ++ r).toList :=
    fun d c hidle => ⟨l.toList ++ [d], c, r.toList, hidle _ _, by simp, by simp⟩
  have hcolon : ∀ d : Char, d = ':' ∨ d = '[' ∨ d = '|' → ∀ p s, Path.Idle (p ++ [d]) ':' s := by
    intro d hd p s
    refine .colon fun e he => ?_
    rw [List.getLast?_concat] at he
    exact Option.some.inj he ▸ hd
  simp only [redundantDelimiters, List.mem_cons, List.not_mem_nil, or_false, Prod.mk.injEq] at h
  rcases h with ⟨rfl, rfl⟩ | ⟨rfl, rfl⟩ | ⟨rfl, rfl⟩ | ⟨rfl, rfl⟩ | ⟨rfl, rfl⟩ | ⟨rfl, rfl⟩
  · exact hbehind ':' ':' (hcolon ':' (.inl rfl))
  · exact hbehind ',' ',' fun p s => .comma List.getLast?_concat
  · exact hbehind '|' '|' fun p s => .bar (by simp)
  · exact ⟨l.toList, ':', '[' :: r.toList, .colonBeforeBracket, by simp, by simp⟩
  · exact hbehind '[' ':' (hcolon '[' (.inr (.inl rfl)))
  · exact hbehind '|' ':' (hcolon '|' (.inr (.inr rfl)))

/-- A text is read alike with and without a redundant delimiter: as the same keymap, or as the same
error, which may quote another text. -/
theorem parse_redundant {x y : String} (h : (x, y) ∈ redundantDelimiters) (l r : String)
    (o : PathOptions) :
    (parse (l ++ x ++ r) o).mapError GrammarError.unquoted =
      (parse (l ++ y ++ r) o).mapError GrammarError.unquoted :=
  parse_eq_of_looser (looser_of_redundant h l r) o

theorem parse_redundant_inside_brackets :
    ("|:", "|") ∈ redundantDelimiters ∧ (":[", "[") ∈ redundantDelimiters ∧
      (parse ("a[|" ++ "|:" ++ "b,,c[]:]") ⟨1⟩).mapError GrammarError.unquoted =
        .error (.afterBracket "") ∧
      (parse ("x,y|a[|:b,,c" ++ ":[" ++ "d]]") ⟨2⟩).mapError GrammarError.unquoted =
        .error (.listBeforeBracket "") ∧
      (parse ("x,y|a[|:b" ++ ":[" ++ "d]]") ⟨2⟩).mapError GrammarError.unquoted =
        .ok ⟨[.keys ["x", "y"], .down "a" (.each (.down "b" (.each (.key "d"))))]⟩ := by
  have hbar : ("|:", "|") ∈ redundantDelimiters := by decide
  have hbracket : (":[", "[") ∈ redundantDelimiters := by decide
  refine ⟨hbar, hbracket, ?_⟩
  rw [parse_redundant hbar, parse_redundant hbracket, parse_redundant hbracket]
  simp only [parse, Function.id_def]
  cbv

end Keymap

end TreePaths
