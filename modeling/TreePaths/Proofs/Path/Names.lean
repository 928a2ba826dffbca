import TreePaths.Proofs.Path.Canonical

/-!
# The names in a text

The words of a text are what its delimiters leave: the longest runs of other characters, in order.
A delimiter anywhere in a text cuts its words in two (`words_append_cons`), so the words of a text
are those of its alternatives, of the segments of its heads and of its interiors, one after another.
`Reads.words_eq` follows the grammar down to the names in this way.
-/

namespace TreePaths.Path

/-- The longest runs of characters that are no delimiters. -/
def words (cs : List Char) : List String :=
  ((cs.splitOnP (· ∈ delimiters)).filter fun w => w ≠ []).map String.ofList

@[simp] theorem words_nil : words [] = [] := by
  simp [words, List.splitOnP_nil]

theorem words_append_cons {d : Char} (hd : d ∈ delimiters) (xs ys : List Char) :
    words (xs ++ d :: ys) = words xs ++ words ys := by
  unfold words
  rw [List.splitOnP_append_cons xs ys (by simpa using hd), List.filter_append, List.map_append]

theorem words_eq_nil {cs : List Char} (h : ∀ c ∈ cs, c ∈ delimiters) : words cs = [] := by
  induction cs with
  | nil => exact words_nil
  | cons c cs ih =>
      rw [List.forall_mem_cons] at h
      simpa [ih h.2] using words_append_cons h.1 [] cs

/-- A text without words consists of delimiters. -/
theorem words_eq_nil_iff {cs : List Char} : words cs = [] ↔ ∀ c ∈ cs, c ∈ delimiters := by
  refine ⟨fun h => ?_, words_eq_nil⟩
  induction cs with
  | nil => exact List.forall_mem_nil _
  | cons c cs ih =>
      by_cases hc : c ∈ delimiters
      · have hcons : words (c :: cs) = words cs := words_append_cons hc [] cs
        exact List.forall_mem_cons.2 ⟨hc, ih (hcons ▸ h)⟩
      · -- The character stands in the first word.
        rw [words, List.splitOnP_cons_eq_if_modifyHead, if_neg (by simpa using hc)] at h
        cases hw : cs.splitOnP (· ∈ delimiters) with
        | nil => exact absurd hw (List.splitOnP_ne_nil _ _)
        | cons w ws => simp [hw] at h

theorem words_of_isName {s : List Char} (h : IsName (String.ofList s)) :
    words s = [String.ofList s] := by
  have hne : s ≠ [] := by simpa using h.toList_ne_nil
  have hs : ∀ c ∈ s, decide (c ∈ delimiters) = false := by simpa using h.2
  rw [words, List.splitOnP_eq_singleton hs]
  simp [hne]

theorem flatMap_words {fs : List (List Char)} (h : ∀ k ∈ fs.map String.ofList, IsName k) :
    fs.flatMap words = fs.map String.ofList := by
  rw [List.forall_mem_map] at h
  rw [List.flatMap_congr fun s hs => words_of_isName (h s hs), List.map_eq_flatMap]

theorem words_intercalate {sep : Char} (hsep : sep ∈ delimiters) (fs : List (List Char)) :
    words (List.intercalate [sep] fs) = fs.flatMap words := by
  induction fs with
  | nil => simp [List.intercalate_nil]
  | cons f fs ih =>
      by_cases hfs : fs = []
      · simp [hfs, List.intercalate_singleton]
      · rw [List.intercalate_cons_of_ne_nil hfs, List.append_assoc, List.singleton_append,
          words_append_cons hsep, ih, List.flatMap_cons]

/-- What has no words may be left out. -/
theorem flatMap_words_filter {p : List Char → Bool} {fs : List (List Char)}
    (h : ∀ f ∈ fs, p f = false → words f = []) :
    (fs.filter p).flatMap words = fs.flatMap words := by
  induction fs with
  | nil => rfl
  | cons f fs ih =>
      rw [List.forall_mem_cons] at h
      cases hf : p f with
      | true => simp [hf, ih h.2]
      | false => simp [hf, ih h.2, h.1 hf]

theorem words_eq_flatMap_parts {sep : Char} (hsep : sep ∈ delimiters) (cs : List Char) :
    words cs = (Text.parts sep cs).flatMap words := by
  rw [Text.parts, flatMap_words_filter fun f _ hf => ?_, ← words_intercalate hsep,
    Text.intercalate_fields]
  obtain rfl : f = [] := by simpa using hf
  exact words_nil

theorem words_bracketed (text inside : List Char) :
    words (text ++ '[' :: (inside ++ [']'])) = words text ++ words inside := by
  rw [words_append_cons (by simp [delimiters]), words_append_cons (by simp [delimiters]), words_nil,
    List.append_nil]

/-- The words of an interior stand in its significant alternatives. -/
theorem words_of_alternatives? {inside : List Char} {alts : List (List Char)}
    (h : Brackets.alternatives? 0 inside = some alts) :
    words inside = (alts.filter isSignificant).flatMap words := by
  have hbar : '|' ∈ delimiters := by simp [delimiters]
  have hplain : ∀ a ∈ alts, isSignificant a = false → words a = [] := by
    intro a _ ha
    refine words_eq_nil fun c hc => ?_
    have hsep : c ≠ ':' → c = ',' := by simpa using List.any_eq_false.1 ha c hc
    by_cases hcolon : c = ':'
    · simp [delimiters, hcolon]
    · simp [delimiters, hsep hcolon]
  rw [flatMap_words_filter hplain, ← words_intercalate hbar,
    (Brackets.alternatives?_eq_some_iff.1 h).2.2]

/-! ## Names -/

theorem names_under (ks : List String) (p : Path) : (under ks p).names = ks ++ p.names := by
  induction ks with
  | nil => rfl
  | cons k ks ih => rw [under_cons, names, ih, List.cons_append]

theorem names_ofKeys? (ks : List String) : (ofKeys? ks).elim [] names = ks := by
  rcases List.eq_nil_or_concat' ks with rfl | ⟨init, last, rfl⟩
  · rfl
  · rw [ofKeys?_append_singleton, Option.elim_some, names_under, names]

theorem Head.names_path? (head : Head) :
    head.path?.elim [] Path.names = head.chain ++ head.names := by
  by_cases h : head.names.length ≤ 1
  · rw [path?_of_length_le_one h, names_ofKeys?]
  · rw [path?_of_one_lt_length (Nat.not_le.1 h), Option.elim_some, names_under, Path.names]

/-- The words of a head without brackets and bars are its names. -/
theorem Head.words_eq {cs : List Char} {head : Head} (h : ofText? cs = some head)
    (hcs : ∀ c ∈ cs, c ≠ '[' ∧ c ≠ ']' ∧ c ≠ '|') : words cs = head.chain ++ head.names := by
  have hcolon : ':' ∈ delimiters := by simp [delimiters]
  have hcomma : ',' ∈ delimiters := by simp [delimiters]
  obtain ⟨hchain, hnames⟩ := isName_of_ofText? h hcs
  obtain ⟨-, hc, hn⟩ := ofText?_eq_some_iff.1 h
  rw [← hc] at hchain
  rw [← hn] at hnames
  have hlast : words ((Text.parts ':' cs).getLast?.getD []) = head.names := by
    rw [words_eq_flatMap_parts hcomma, flatMap_words hnames, hn]
  rw [words_eq_flatMap_parts hcolon, ← hlast, ← hc, ← flatMap_words hchain]
  rcases List.eq_nil_or_concat' (Text.parts ':' cs) with hnil | ⟨init, last, hconcat⟩
  · simp [hnil]
  · simp [hconcat]

/-- The words of a text that is not cut are the names of the path that it is read as. -/
theorem Reads.words_eq {room : Nat} {cs : List Char} {r : Option Path} (h : Reads room cs r)
    (hcs : Brackets.span? 0 cs = some 0) : words cs = r.elim [] names := by
  induction h with
  | bare hopen hhead =>
      rw [Head.words_eq hhead (Brackets.plain_of_span? hopen hcs), Head.names_path?]
  | push htext hopen hhead _ halts hnone =>
      subst htext
      rw [words_bracketed, Head.words_eq hhead (span?_head hopen hcs), words_of_alternatives? halts,
        hnone, Option.elim_some, Head.before, names_under]
      rfl
  | @each _ _ _ _ _ _ _ p htext hopen hhead _ halts hinner _ ih =>
      subst htext
      rw [words_bracketed, Head.words_eq hhead (span?_head hopen hcs), words_of_alternatives? halts,
        hinner, List.flatMap_singleton, ih (span?_of_significant halts hinner), Option.elim_some,
        Head.before, names_under]
      cases p <;> rfl

/-- Alternatives that name nothing have no words either. -/
theorem flatMap_names_filterMap {room : Nat} {alts : List (List Char)} {found : List (Option Path)}
    (h : List.Forall₂ (Reads room) alts found) (halts : ∀ a ∈ alts, Brackets.span? 0 a = some 0) :
    (found.filterMap id).flatMap names = alts.flatMap words := by
  induction h with
  | nil => rfl
  | @cons a r alts found hread _ ih =>
      rw [List.forall_mem_cons] at halts
      rw [List.flatMap_cons, hread.words_eq halts.1, ← ih halts.2]
      cases r <;> rfl

end TreePaths.Path
