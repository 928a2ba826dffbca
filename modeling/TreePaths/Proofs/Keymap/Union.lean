import TreePaths.Proofs.Keymap.Parse

/-!
# Keymaps side by side

Two balanced texts with a bar between them are read as the two texts are, one after the other: the
first error is the error of the whole, with the text that it quotes, and without an error the paths
of both are listed in order. For a bar behind a balanced text stands outside of all brackets, and
neither text can change how the other one is cut.
-/

namespace TreePaths.Keymap

/-- Balanced texts with a bar between them are read as their keymaps side by side. -/
theorem parse_union {a b : String} (ha : Brackets.Balanced a.toList)
    (hb : Brackets.Balanced b.toList) (o : PathOptions) :
    parse (a ++ "|" ++ b) o =
      match parse a o, parse b o with
      | .error e, _ => .error e
      | .ok _, .error e => .error e
      | .ok k, .ok l => .ok ⟨k.paths ++ l.paths⟩ := by
  have htext : (a ++ "|" ++ b).toList = a.toList ++ '|' :: b.toList := by simp
  have haalts := Brackets.alternatives?_eq_some_outerParts_iff.2 ⟨ha, rfl⟩
  have hbalts := Brackets.alternatives?_eq_some_outerParts_iff.2 ⟨hb, rfl⟩
  have halts : Brackets.alternatives? 0 (a ++ "|" ++ b).toList =
      some (Brackets.outerParts a.toList ++ Brackets.outerParts b.toList) := by
    rw [htext, Brackets.alternatives?_append_bar haalts, hbalts, Option.map_some]
  rw [parse_eq_of_alternatives? halts, parse_eq_of_alternatives? haalts,
    parse_eq_of_alternatives? hbalts, List.mapM_append]
  cases (Brackets.outerParts a.toList).mapM (Path.ofAlternative o.maxDepth o.maxDepth) with
  | error e => rfl
  | ok ps =>
      cases (Brackets.outerParts b.toList).mapM (Path.ofAlternative o.maxDepth o.maxDepth) with
      | error e => rfl
      | ok qs => exact congrArg Except.ok (congrArg Keymap.mk List.filterMap_append)

theorem parse_union_bracketed_bars :
    Brackets.Balanced "a[|b|]|,".toList ∧ Brackets.Balanced "|c:[]".toList ∧
      Brackets.Balanced "d,e:f|[x]y".toList ∧
      parse ("a[|b|]|," ++ "|" ++ "|c:[]") ⟨1⟩ =
        .ok ⟨[.down "a" (.each (.key "b")), .down "c" .push]⟩ ∧
      parse ("a[|b|]|," ++ "|" ++ "d,e:f|[x]y") ⟨1⟩ = .error (.listBeforeEnd "d,e:f") := by
  have ha : Brackets.Balanced "a[|b|]|,".toList := Brackets.balanced_iff.2 (by cbv)
  have hb : Brackets.Balanced "|c:[]".toList := Brackets.balanced_iff.2 (by cbv)
  have hc : Brackets.Balanced "d,e:f|[x]y".toList := Brackets.balanced_iff.2 (by cbv)
  refine ⟨ha, hb, hc, (parse_union ha hb ⟨1⟩).trans ?_, (parse_union ha hc ⟨1⟩).trans ?_⟩
  all_goals
    simp only [parse, Function.id_def]
    cbv

end TreePaths.Keymap
