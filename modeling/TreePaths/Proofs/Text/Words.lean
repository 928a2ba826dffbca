import Mathlib.Data.Bool.Basic
import Mathlib.Data.List.TakeWhile
import TreePaths.Text.SnakeCase

/-!
# The words of an identifier

`WordBefore w rest` says what a word `w` may be where `rest` follows it: an acronym, or a letter
with small letters and digits behind it. The scanner takes nothing else for a word
(`wordBefore_of_wordLength?`), and where it skips a letter no word of either kind could start
(`wordLength?_eq_none`). Either way to lower a word leaves no capital in it
(`WordBefore.lowered_eq`), so it becomes a small letter with small letters and digits behind it.
-/

namespace TreePaths.SnakeCase

/-- A word in front of a text. -/
inductive WordBefore : List Char → List Char → Prop
  | acronym {c : Char} {cs rest : List Char} (hc : c.isUpper = true)
      (hcs : ∀ d ∈ cs, isCapital d = true) (hrest : endsAcronym rest = true) :
      WordBefore (c :: cs) rest
  | plain {c : Char} {cs rest : List Char} (hc : c.isAlpha = true) (hne : cs ≠ [])
      (hcs : ∀ d ∈ cs, isSmall d = true) (hrest : ∀ d ∈ rest.head?, isSmall d = false) :
      WordBefore (c :: cs) rest

/-- A word of a text in snake case. -/
def IsLowerWord : List Char → Prop
  | [] => False
  | c :: cs => c.isLower = true ∧ ∀ d ∈ cs, isSmall d = true

/-! ## Classes of characters -/

theorem isUpper_iff {c : Char} : c.isUpper = true ↔ 65 ≤ c.toNat ∧ c.toNat ≤ 90 := by
  unfold Char.isUpper
  simp [UInt32.le_iff_toNat_le]

theorem isLower_iff {c : Char} : c.isLower = true ↔ 97 ≤ c.toNat ∧ c.toNat ≤ 122 := by
  unfold Char.isLower
  simp [UInt32.le_iff_toNat_le]

theorem isDigit_iff {c : Char} : c.isDigit = true ↔ 48 ≤ c.toNat ∧ c.toNat ≤ 57 :=
  Char.isDigit_iff_toNat

theorem isAlpha_iff {c : Char} : c.isAlpha = true ↔ c.isUpper = true ∨ c.isLower = true :=
  Bool.or_eq_true_iff

theorem isAlphanum_iff {c : Char} : c.isAlphanum = true ↔ c.isAlpha = true ∨ c.isDigit = true :=
  Bool.or_eq_true_iff

theorem isUpper_eq_false_of_isLower {c : Char} (h : c.isLower = true) : c.isUpper = false := by
  rw [isLower_iff] at h
  rw [Bool.eq_false_iff, ne_eq, isUpper_iff]
  omega

theorem isLower_eq_false_of_isUpper {c : Char} (h : c.isUpper = true) : c.isLower = false := by
  rw [isUpper_iff] at h
  rw [Bool.eq_false_iff, ne_eq, isLower_iff]
  omega

theorem isCapital_of_isUpper {c : Char} (h : c.isUpper = true) : isCapital c = true :=
  Bool.or_eq_true_iff.2 (.inl h)

theorem isAlphanum_of_isAlpha {c : Char} (h : c.isAlpha = true) : c.isAlphanum = true :=
  isAlphanum_iff.2 (.inl h)

theorem isAlpha_eq_false_of_isDigit {c : Char} (h : c.isDigit = true) : c.isAlpha = false := by
  rw [isDigit_iff] at h
  rw [Bool.eq_false_iff, ne_eq, isAlpha_iff, isUpper_iff, isLower_iff]
  omega

theorem isDigit_eq_false_of_isAlpha {c : Char} (h : c.isAlpha = true) : c.isDigit = false := by
  by_contra hdigit
  rw [isAlpha_eq_false_of_isDigit (Bool.eq_true_of_not_eq_false hdigit)] at h
  cases h

theorem isUpper_eq_false_of_isSmall {c : Char} (h : isSmall c = true) : c.isUpper = false := by
  rcases Bool.or_eq_true_iff.1 h with hlower | hdigit
  · exact isUpper_eq_false_of_isLower hlower
  · exact (Bool.or_eq_false_iff.1 (isAlpha_eq_false_of_isDigit hdigit)).1

theorem isLower_eq_false_of_isCapital {c : Char} (h : isCapital c = true) :
    c.isLower = false := by
  rcases Bool.or_eq_true_iff.1 h with hupper | hdigit
  · exact isLower_eq_false_of_isUpper hupper
  · exact (Bool.or_eq_false_iff.1 (isAlpha_eq_false_of_isDigit hdigit)).2

theorem isSmall_eq_false_of_isUpper {c : Char} (h : c.isUpper = true) : isSmall c = false := by
  by_contra hsmall
  rw [isUpper_eq_false_of_isSmall (Bool.eq_true_of_not_eq_false hsmall)] at h
  cases h

/-- A letter or digit is a capital, or else small. -/
theorem isSmall_of_isAlphanum {c : Char} (h : c.isAlphanum = true) (hupper : c.isUpper = false) :
    isSmall c = true := by
  rw [isAlphanum_iff, isAlpha_iff, hupper] at h
  simpa [isSmall] using h

theorem isAlphanum_of_isSmall {c : Char} (h : isSmall c = true) : c.isAlphanum = true := by
  rw [isAlphanum_iff, isAlpha_iff]
  rcases Bool.or_eq_true_iff.1 h with hlower | hdigit
  · exact .inl (.inr hlower)
  · exact .inr hdigit

theorem isAlphanum_of_isCapital {c : Char} (h : isCapital c = true) : c.isAlphanum = true := by
  rw [isAlphanum_iff, isAlpha_iff]
  rcases Bool.or_eq_true_iff.1 h with hupper | hdigit
  · exact .inl (.inl hupper)
  · exact .inr hdigit

/-! ## What the scanner takes for a word -/

theorem exists_of_acronymLength? {cs : List Char} {n m : Nat}
    (h : acronymLength? cs n = some m) :
    ∃ k < n, m = k + 1 ∧ endsAcronym (cs.drop (k + 1)) = true := by
  induction n with
  | zero => cases h
  | succ n ih =>
      rw [acronymLength?] at h
      split at h
      · rename_i hends
        obtain rfl := Option.some.inj h
        exact ⟨n, Nat.lt_succ_self n, rfl, hends⟩
      · obtain ⟨k, hk, hm, hends⟩ := ih h
        exact ⟨k, Nat.lt_succ_of_lt hk, hm, hends⟩

theorem acronymLength?_eq_none_iff {cs : List Char} {n : Nat} :
    acronymLength? cs n = none ↔ ∀ k < n, endsAcronym (cs.drop (k + 1)) = false := by
  induction n with
  | zero => simp [acronymLength?]
  | succ n ih =>
      rw [acronymLength?, Nat.forall_lt_succ_right, ← ih]
      split
      · rename_i hends
        simp [hends]
      · rename_i hends
        simpa using fun _ => hends

/-- The characters up to a place in a run belong to the run. -/
theorem forall_mem_take {p : Char → Bool} {cs : List Char} {k : Nat}
    (hk : k ≤ (cs.takeWhile p).length) : ∀ d ∈ cs.take k, p d = true := by
  intro d hd
  have htake : cs.take k = (cs.takeWhile p).take k := by
    have hrun : cs.takeWhile p = cs.take (cs.takeWhile p).length :=
      List.prefix_iff_eq_take.1 (List.takeWhile_prefix p)
    rw [hrun, List.take_take, Nat.min_eq_left hk]
  rw [htake] at hd
  exact List.mem_takeWhile_imp (List.mem_of_mem_take hd)

/-- What the scanner finds is a word in front of the rest of the text. -/
theorem wordBefore_of_wordLength? {c : Char} {cs : List Char} {m : Nat}
    (h : wordLength? (c :: cs) = some m) :
    ∃ n, m = n + 1 ∧ WordBefore (c :: cs.take n) (cs.drop n) := by
  rw [wordLength?, Option.or_eq_some_iff] at h
  rcases h with hacronym | ⟨-, hplain⟩
  · split at hacronym
    · rename_i hc
      obtain ⟨k, hk, rfl, hends⟩ := exists_of_acronymLength? hacronym
      exact ⟨k, rfl, .acronym hc (forall_mem_take (Nat.le_of_lt_succ hk)) hends⟩
    · cases hacronym
  · dsimp only at hplain
    split at hplain
    · rename_i hc
      obtain ⟨halpha, hne⟩ := hc
      obtain rfl := Option.some.inj hplain
      have hsplit : cs = cs.takeWhile isSmall ++ cs.dropWhile isSmall :=
        List.takeWhile_append_dropWhile.symm
      have htake : cs.take (cs.takeWhile isSmall).length = cs.takeWhile isSmall :=
        (congrArg (List.take _) hsplit).trans List.take_left
      have hdrop : cs.drop (cs.takeWhile isSmall).length = cs.dropWhile isSmall :=
        (congrArg (List.drop _) hsplit).trans List.drop_left
      refine ⟨_, rfl, .plain halpha ?_ (forall_mem_take le_rfl) fun d hd => ?_⟩
      · rw [htake]
        exact List.ne_nil_of_length_pos (Nat.pos_of_ne_zero hne)
      · rw [hdrop] at hd
        have hstop := List.head?_dropWhile_not isSmall cs
        rw [hd] at hstop
        exact hstop
    · cases hplain

/-- Where the scanner finds no word, no letter starts one. -/
theorem wordLength?_eq_none {c : Char} {cs : List Char} (h : wordLength? (c :: cs) = none) :
    (c.isAlpha = true → ∀ d ∈ cs.head?, isSmall d = false) ∧
      (c.isUpper = true → ∀ k ≤ (cs.takeWhile isCapital).length,
        endsAcronym (cs.drop k) = false) := by
  rw [wordLength?, Option.or_eq_none_iff] at h
  obtain ⟨hacronym, hplain⟩ := h
  constructor
  · intro hc d hd
    cases cs with
    | nil => cases hd
    | cons e cs =>
        obtain rfl := Option.some.inj hd
        by_contra hsmall
        simp [hc, hsmall] at hplain
  · intro hc k hk
    rw [if_pos hc, acronymLength?_eq_none_iff] at hacronym
    exact hacronym k (Nat.lt_succ_of_le hk)

theorem wordBefore_of_mem_words {cs w : List Char} (h : w ∈ words cs) :
    ∃ rest, WordBefore w rest := by
  fun_induction words cs with
  | case1 => cases h
  | case2 c cs n hn ih =>
      rcases List.mem_cons.1 h with rfl | h
      · obtain ⟨m, hm, hw⟩ := wordBefore_of_wordLength? hn
        obtain rfl := Nat.succ.inj hm
        exact ⟨_, hw⟩
      · exact ih h
  | case3 c cs hn ih => exact ih h

/-! ## Lowering a word -/

theorem toLower_of_isUpper_eq_false {c : Char} (h : c.isUpper = false) : c.toLower = c :=
  dif_neg fun hrange => Bool.eq_false_iff.1 h (isUpper_iff.2 hrange)

theorem toUpper_of_isLower_eq_false {c : Char} (h : c.isLower = false) : c.toUpper = c :=
  dif_neg fun hrange => Bool.eq_false_iff.1 h (isLower_iff.2 hrange)

theorem toNat_toLower_of_isUpper {c : Char} (h : c.isUpper = true) :
    c.toLower.toNat = c.toNat + 32 := by
  have hrange : c.val ≥ 'A'.val ∧ c.val ≤ 'Z'.val := isUpper_iff.1 h
  have hlower : c.toLower.toNat = (c.val + 32).toNat := by
    unfold Char.toLower
    rw [dif_pos hrange]
    rfl
  have hle : c.val.toNat ≤ 90 := hrange.2
  have hword : c.val.toNat + 32 < 2 ^ 32 := by omega
  rw [hlower, UInt32.toNat_add]
  exact Nat.mod_eq_of_lt hword

theorem isLower_toLower {c : Char} (h : c.isAlpha = true) : c.toLower.isLower = true := by
  rcases Bool.or_eq_true_iff.1 h with hupper | hlower
  · rw [isLower_iff, toNat_toLower_of_isUpper hupper]
    rw [isUpper_iff] at hupper
    omega
  · rwa [toLower_of_isUpper_eq_false (isUpper_eq_false_of_isLower hlower)]

theorem map_toLower_of_isSmall {cs : List Char} (h : ∀ d ∈ cs, isSmall d = true) :
    cs.map Char.toLower = cs := by
  have hsame : ∀ d ∈ cs, d.toLower = id d := fun d hd =>
    toLower_of_isUpper_eq_false (isUpper_eq_false_of_isSmall (h d hd))
  rw [List.map_congr_left hsame, List.map_id]

theorem map_toUpper_of_isCapital {cs : List Char} (h : ∀ d ∈ cs, isCapital d = true) :
    cs.map Char.toUpper = cs := by
  have hsame : ∀ d ∈ cs, d.toUpper = id d := fun d hd =>
    toUpper_of_isLower_eq_false (isLower_eq_false_of_isCapital (h d hd))
  rw [List.map_congr_left hsame, List.map_id]

/-- A word is in lower case after either way to lower it. -/
theorem WordBefore.lowered_eq {w rest : List Char} (h : WordBefore w rest) :
    lowered w = w.map Char.toLower := by
  cases h with
  | @acronym c cs rest hc hcs hrest =>
      have hall : ∀ d ∈ c :: cs, isCapital d = true :=
        List.forall_mem_cons.2 ⟨isCapital_of_isUpper hc, hcs⟩
      rw [lowered, if_pos (map_toUpper_of_isCapital hall).symm]
  | @plain c cs rest hc hne hcs hrest =>
      rw [lowered]
      split
      · rfl
      · rw [List.map_cons, map_toLower_of_isSmall hcs]

theorem WordBefore.isAlpha_head {c : Char} {cs rest : List Char} (h : WordBefore (c :: cs) rest) :
    c.isAlpha = true := by
  cases h with
  | acronym hc => exact Bool.or_eq_true_iff.2 (.inl hc)
  | plain hc => exact hc

theorem WordBefore.isAlphanum {w rest : List Char} (h : WordBefore w rest) :
    ∀ c ∈ w, c.isAlphanum = true := by
  cases h with
  | acronym hc hcs =>
      have hfirst := isAlphanum_of_isCapital (isCapital_of_isUpper hc)
      exact List.forall_mem_cons.2 ⟨hfirst, fun d hd => isAlphanum_of_isCapital (hcs d hd)⟩
  | plain hc hne hcs =>
      exact List.forall_mem_cons.2
        ⟨isAlphanum_of_isAlpha hc, fun d hd => isAlphanum_of_isSmall (hcs d hd)⟩

theorem isSmall_toLower {c : Char} (h : c.isAlphanum = true) : isSmall c.toLower = true := by
  rcases Bool.or_eq_true_iff.1 h with halpha | hdigit
  · exact Bool.or_eq_true_iff.2 (.inl (isLower_toLower halpha))
  · have hsmall : isSmall c = true := Bool.or_eq_true_iff.2 (.inr hdigit)
    rwa [toLower_of_isUpper_eq_false (isUpper_eq_false_of_isSmall hsmall)]

theorem WordBefore.isLowerWord {w rest : List Char} (h : WordBefore w rest) :
    IsLowerWord (w.map Char.toLower) := by
  have hsmall : ∀ c ∈ w, isSmall c.toLower = true := fun c hc => isSmall_toLower (h.isAlphanum c hc)
  cases w with
  | nil => cases h
  | cons c cs =>
      rw [List.forall_mem_cons] at hsmall
      exact ⟨isLower_toLower h.isAlpha_head, List.forall_mem_map.2 hsmall.2⟩

theorem IsLowerWord.not_mem {w : List Char} (h : IsLowerWord w) : '_' ∉ w := by
  cases w with
  | nil => exact List.not_mem_nil
  | cons c cs =>
      rintro (_ | ⟨_, hc⟩)
      · exact absurd h.1 (by decide)
      · exact absurd (h.2 _ hc) (by decide)

theorem toList_snakeCase (text : String) :
    (snakeCase text).toList =
      List.intercalate ['_'] ((words text.toList).map (List.map Char.toLower)) := by
  have hlowered : ∀ w ∈ words text.toList, lowered w = w.map Char.toLower := by
    intro w hw
    obtain ⟨rest, h⟩ := wordBefore_of_mem_words hw
    exact h.lowered_eq
  rw [snakeCase, String.toList_ofList, List.map_congr_left hlowered]

/-- What is joined in snake case are words in lower case. -/
theorem isLowerWord_of_mem {text : List Char} :
    ∀ w ∈ (words text).map (List.map Char.toLower), IsLowerWord w := by
  refine List.forall_mem_map.2 fun w hw => ?_
  obtain ⟨rest, h⟩ := wordBefore_of_mem_words hw
  exact h.isLowerWord

end TreePaths.SnakeCase
