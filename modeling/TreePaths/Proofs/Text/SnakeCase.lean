import Mathlib.Data.List.Basic
import TreePaths.Proofs.Text.Fields
import TreePaths.Proofs.Text.Words

/-!
# Snake case of snake case

A text in snake case consists of words in lower case, with single underscores between them. When it
is put into snake case once more, the underscores separate just the same words again, for no small
letter or digit of a word is left for a later one; but a word that is a single letter is none any
more, so it is dropped (`words_intercalate`).
-/

namespace TreePaths.SnakeCase

/-- The words between the underscores of a text. -/
def joined (text : String) : List (List Char) := Text.parts '_' text.toList

theorem wordLength?_of_isLower {c : Char} {cs rest : List Char} (hc : c.isLower = true)
    (hcs : ∀ d ∈ cs, isSmall d = true) (hrest : ∀ d ∈ rest.head?, isSmall d = false) :
    wordLength? (c :: (cs ++ rest)) = if cs = [] then none else some (cs.length + 1) := by
  have halpha : c.isAlpha = true := isAlpha_iff.2 (.inr hc)
  have hupper := isUpper_eq_false_of_isLower hc
  have hrun : (cs ++ rest).takeWhile isSmall = cs := by
    rw [List.takeWhile_append_of_pos hcs]
    cases rest with
    | nil => simp
    | cons d rest => simp [hrest d rfl]
  rw [wordLength?, hrun]
  simp [hupper, halpha]

/-- A word in lower case is found again where it ends, unless it is a single letter. -/
theorem words_append {w rest : List Char} (hw : IsLowerWord w)
    (hrest : ∀ d ∈ rest.head?, isSmall d = false) :
    words (w ++ rest) = if 2 ≤ w.length then w :: words rest else words rest := by
  cases w with
  | nil => cases hw
  | cons c cs =>
      rw [List.cons_append, words, wordLength?_of_isLower hw.1 hw.2 hrest]
      cases cs with
      | nil => simp
      | cons d cs => simp

theorem words_underscore (cs : List Char) : words ('_' :: cs) = words cs := by
  have hnone : wordLength? ('_' :: cs) = none := rfl
  rw [words, hnone]

/-- The words between underscores are the words of the text, but for those of one letter. -/
theorem words_intercalate {ws : List (List Char)} (h : ∀ w ∈ ws, IsLowerWord w) :
    words (List.intercalate ['_'] ws) = ws.filter (2 ≤ ·.length) := by
  induction ws with
  | nil => simp [words]
  | cons w ws ih =>
      rw [List.forall_mem_cons] at h
      have hrest : ∃ rest, List.intercalate ['_'] (w :: ws) = w ++ rest ∧
          (∀ d ∈ rest.head?, isSmall d = false) ∧
          words rest = words (List.intercalate ['_'] ws) := by
        by_cases hws : ws = []
        · refine ⟨[], ?_, by simp, ?_⟩
          · rw [hws, List.intercalate_singleton, List.append_nil]
          · rw [hws, List.intercalate_nil]
        · refine ⟨'_' :: List.intercalate ['_'] ws, ?_, ?_, words_underscore _⟩
          · rw [List.intercalate_cons_of_ne_nil hws, List.append_assoc, List.singleton_append]
          · intro d hd
            obtain rfl := Option.some.inj hd
            rfl
      obtain ⟨rest, hcons, hhead, hwords⟩ := hrest
      rw [hcons, words_append h.1 hhead, hwords, ih h.2, List.filter_cons]
      simp

theorem IsLowerWord.map_toLower {w : List Char} (h : IsLowerWord w) : w.map Char.toLower = w := by
  cases w with
  | nil => rfl
  | cons c cs =>
      exact map_toLower_of_isSmall (List.forall_mem_cons.2 ⟨Bool.or_eq_true_iff.2 (.inl h.1), h.2⟩)

theorem parts_intercalate {ws : List (List Char)} (h : ∀ w ∈ ws, IsLowerWord w) :
    Text.parts '_' (List.intercalate ['_'] ws) = ws := by
  rw [Text.parts_intercalate fun w hw => (h w hw).not_mem]
  refine List.filter_eq_self.2 fun w hw => decide_eq_true ?_
  rintro rfl
  exact h _ hw

theorem joined_snakeCase (text : String) :
    joined (snakeCase text) = (words text.toList).map (List.map Char.toLower) := by
  rw [joined, toList_snakeCase, parts_intercalate isLowerWord_of_mem]

/-- A text that joins words in lower case keeps those of more than one letter. -/
theorem snakeCase_intercalate {ws : List (List Char)} (h : ∀ w ∈ ws, IsLowerWord w) :
    snakeCase (String.ofList (List.intercalate ['_'] ws)) =
      String.ofList (List.intercalate ['_'] (ws.filter (2 ≤ ·.length))) := by
  have hlower : ∀ w ∈ ws.filter (2 ≤ ·.length), w.map Char.toLower = id w := fun w hw =>
    (h w (List.mem_of_mem_filter hw)).map_toLower
  apply String.toList_injective
  rw [toList_snakeCase, String.toList_ofList, String.toList_ofList, words_intercalate h,
    List.map_congr_left hlower, List.map_id]

/-- Snake case is a list of words in lower case with single underscores between them. Putting it
into snake case again leaves the words of more than one letter, so it changes nothing just if there
are no others. -/
theorem snakeCase_snakeCase (text : String) :
    (∀ w ∈ joined (snakeCase text), IsLowerWord w) ∧
      String.ofList (List.intercalate ['_'] (joined (snakeCase text))) = snakeCase text ∧
      snakeCase (snakeCase text) =
        String.ofList (List.intercalate ['_'] ((joined (snakeCase text)).filter (2 ≤ ·.length))) ∧
      (snakeCase (snakeCase text) = snakeCase text ↔
        ∀ w ∈ joined (snakeCase text), 2 ≤ w.length) := by
  have hlower : ∀ w ∈ joined (snakeCase text), IsLowerWord w := by
    rw [joined_snakeCase]
    exact isLowerWord_of_mem
  have htext : String.ofList (List.intercalate ['_'] (joined (snakeCase text))) =
      snakeCase text := by
    apply String.toList_injective
    rw [joined_snakeCase, String.toList_ofList, toList_snakeCase]
  have htwice : snakeCase (snakeCase text) =
      String.ofList (List.intercalate ['_'] ((joined (snakeCase text)).filter (2 ≤ ·.length))) := by
    rw [← snakeCase_intercalate hlower, htext]
  refine ⟨hlower, htext, htwice, fun hfixed => ?_, fun hlong => ?_⟩
  · -- Joined words can be told apart again, so no word is missing from the same text.
    have hlong : ∀ w ∈ (joined (snakeCase text)).filter (2 ≤ ·.length), IsLowerWord w :=
      fun w hw => hlower w (List.mem_of_mem_filter hw)
    have hsame := congrArg String.toList (htwice.symm.trans (hfixed.trans htext.symm))
    rw [String.toList_ofList, String.toList_ofList] at hsame
    have hwords := congrArg (Text.parts '_') hsame
    rw [parts_intercalate hlong, parts_intercalate hlower] at hwords
    simpa using List.filter_eq_self.1 hwords
  · have hwords : (joined (snakeCase text)).filter (2 ≤ ·.length) = joined (snakeCase text) :=
      List.filter_eq_self.2 fun w hw => decide_eq_true (hlong w hw)
    rw [htwice, hwords, htext]

end TreePaths.SnakeCase
