import Mathlib.Data.List.DropRight
import Mathlib.Data.List.Induction
import TreePaths.Proofs.Text.Fields
import TreePaths.Proofs.Text.Words

/-!
# Letters that are lost

Snake case drops more than separators. A capital is lost if only capitals stand between it and a
separator behind it, so an acronym is lost as a whole there; digits are lost at the start of a text
and behind a separator; and behind those a small letter is lost if it stands alone. `isLost` says so
of one character and the texts on either side of it, without looking for words.

The scanner loses just these characters (`flatten_words`). What carries the proof is that it comes
to a small letter or a digit only where all letters since the last separator have been lost: each
word takes the small letters and digits behind it along.
-/

namespace TreePaths.SnakeCase

/-- Whether nothing but digits stands at the end of a text, back to the last separator. -/
def leads (before : List Char) : Bool := (before.rtakeWhile Char.isAlphanum).all Char.isDigit

/-- Whether a text starts with a separator, or with capitals and then a separator. -/
def separates (after : List Char) : Bool :=
  (after.dropWhile Char.isUpper).head?.any fun d => !d.isAlphanum

/-- Whether a letter or digit between two texts belongs to no word. A capital does not if there are
only capitals up to a separator behind it. A digit does not where only digits stand before it, and
neither does a small letter there, unless a small letter or a digit follows. -/
def isLost (before : List Char) (c : Char) (after : List Char) : Bool :=
  if c.isUpper then separates after
  else leads before && (c.isDigit || !after.head?.any isSmall)

/-- The letters and digits of a text that are not lost, where another text stands before it. -/
def keptAfter (before : List Char) : List Char → List Char
  | [] => []
  | c :: cs =>
    if c.isAlphanum && !isLost before c cs then c :: keptAfter (before ++ [c]) cs
    else keptAfter (before ++ [c]) cs

theorem separates_cons_of_isUpper {c : Char} (hc : c.isUpper = true) (cs : List Char) :
    separates (c :: cs) = separates cs := by
  rw [separates, List.dropWhile_cons_of_pos hc, separates]

theorem separates_cons_of_not_isUpper {c : Char} (hc : c.isUpper = false) (cs : List Char) :
    separates (c :: cs) = !c.isAlphanum := by
  rw [separates, List.dropWhile_cons_of_neg (by simp [hc])]
  rfl

theorem isLost_of_isUpper {c : Char} (hc : c.isUpper = true) (before after : List Char) :
    isLost before c after = separates after :=
  if_pos hc

theorem isLost_of_not_isUpper {c : Char} (hc : c.isUpper = false) (before after : List Char) :
    isLost before c after = (leads before && (c.isDigit || !after.head?.any isSmall)) :=
  if_neg (Bool.eq_false_iff.1 hc)

theorem leads_append_singleton (before : List Char) (c : Char) :
    leads (before ++ [c]) = if c.isAlphanum then leads before && c.isDigit else true := by
  rw [leads, List.rtakeWhile_concat]
  split
  · rw [List.all_append, List.all_cons, List.all_nil, Bool.and_true, leads]
  · rfl

/-- Behind a letter no more digits are lost. -/
theorem leads_append_cons {before cs : List Char} {c : Char} (hc : c.isAlpha = true)
    (hcs : ∀ d ∈ cs, d.isAlphanum = true) : leads (before ++ c :: cs) = false := by
  induction cs using List.reverseRecOn with
  | nil =>
      rw [leads_append_singleton, if_pos (isAlphanum_of_isAlpha hc),
        isDigit_eq_false_of_isAlpha hc, Bool.and_false]
  | append_singleton cs d ih =>
      obtain ⟨hcs, hd⟩ := List.forall_mem_append.1 hcs
      rw [← List.cons_append, ← List.append_assoc, leads_append_singleton, ih hcs]
      simp [hd]

theorem keptAfter_of_not_kept {before cs : List Char} {c : Char}
    (h : c.isAlphanum = true → isLost before c cs = true) :
    keptAfter before (c :: cs) = keptAfter (before ++ [c]) cs := by
  rw [keptAfter]
  cases hc : c.isAlphanum with
  | false => rfl
  | true => rw [h hc]; rfl

/-- A run of characters none of which is lost is kept as it is. -/
theorem keptAfter_append {before w rest : List Char}
    (h : ∀ xs c ys, w = xs ++ c :: ys →
      c.isAlphanum = true ∧ isLost (before ++ xs) c (ys ++ rest) = false) :
    keptAfter before (w ++ rest) = w ++ keptAfter (before ++ w) rest := by
  induction w generalizing before with
  | nil => simp
  | cons c w ih =>
      obtain ⟨hc, hlost⟩ := h [] c w rfl
      rw [List.append_nil] at hlost
      have htail : ∀ xs d ys, w = xs ++ d :: ys →
          d.isAlphanum = true ∧ isLost (before ++ [c] ++ xs) d (ys ++ rest) = false := by
        intro xs d ys hw
        rw [List.append_assoc]
        exact h (c :: xs) d ys (by rw [hw]; rfl)
      rw [List.cons_append, keptAfter, hc, hlost, ih htail]
      simp

/-! ## The scanner -/

theorem not_separates_of_small {c : Char} (hc : isSmall c = true) (cs : List Char) :
    separates (c :: cs) = false := by
  rw [separates_cons_of_not_isUpper (isUpper_eq_false_of_isSmall hc), isAlphanum_of_isSmall hc]
  rfl

/-- No separator follows the capitals of an acronym: what ends it is the end of the text or a
capital with a small letter or digit behind it. -/
theorem not_separates_of_endsAcronym {cs rest : List Char}
    (hcs : ∀ d ∈ cs, isCapital d = true) (hrest : endsAcronym rest = true) :
    separates (cs ++ rest) = false := by
  induction cs with
  | nil =>
      match rest, hrest with
      | [], _ => rfl
      | c :: d :: rest, hrest =>
          obtain ⟨hc, hd⟩ := Bool.and_eq_true_iff.1 hrest
          rw [List.nil_append, separates_cons_of_isUpper hc, not_separates_of_small hd]
  | cons c cs ih =>
      rw [List.forall_mem_cons] at hcs
      cases hc : c.isUpper with
      | true => rw [List.cons_append, separates_cons_of_isUpper hc, ih hcs.2]
      | false =>
          rw [List.cons_append, separates_cons_of_not_isUpper hc, isAlphanum_of_isCapital hcs.1]
          rfl

/-- Where no acronym ends in a run of capitals and digits, and neither a digit nor a small letter
follows at once, only capitals and then a separator can follow. -/
theorem separates_of_not_endsAcronym {cs : List Char} (hhead : ∀ d ∈ cs.head?, isSmall d = false)
    (h : ∀ k ≤ (cs.takeWhile isCapital).length, endsAcronym (cs.drop k) = false) :
    separates cs = true := by
  induction cs with
  | nil => cases h 0 (Nat.zero_le _)
  | cons c cs ih =>
      have hsmall := hhead c rfl
      cases hc : c.isUpper with
      | true =>
          rw [separates_cons_of_isUpper hc]
          refine ih (fun d hd => ?_) fun k hk => ?_
          · cases cs with
            | nil => cases hd
            | cons e cs =>
                obtain rfl := Option.some.inj hd
                have hends := h 0 (Nat.zero_le _)
                rwa [List.drop_zero, endsAcronym, hc, Bool.true_and] at hends
          · have hrun : k + 1 ≤ ((c :: cs).takeWhile isCapital).length := by
              rw [List.takeWhile_cons_of_pos (isCapital_of_isUpper hc)]
              exact Nat.succ_le_succ hk
            exact h (k + 1) hrun
      | false =>
          rw [separates_cons_of_not_isUpper hc]
          cases halnum : c.isAlphanum with
          | false => rfl
          | true =>
              rw [isSmall_of_isAlphanum halnum hc] at hsmall
              cases hsmall

theorem WordBefore.head {w rest : List Char} (h : WordBefore w rest) :
    ∀ d ∈ rest.head?, isSmall d = false := by
  cases h with
  | acronym hc hcs hrest =>
      intro d hd
      match rest, hrest with
      | [], _ => cases hd
      | c :: e :: rest, hrest =>
          obtain rfl := Option.some.inj hd
          exact isSmall_eq_false_of_isUpper (Bool.and_eq_true_iff.1 hrest).1
  | plain hc hne hcs hrest => exact hrest

/-- The first letter of a word is not lost. -/
theorem WordBefore.isLost_first {c : Char} {cs rest : List Char} (h : WordBefore (c :: cs) rest)
    (before : List Char) : isLost before c (cs ++ rest) = false := by
  cases h with
  | acronym hc hcs hrest => rw [isLost_of_isUpper hc, not_separates_of_endsAcronym hcs hrest]
  | plain hc hne hcs hrest =>
      obtain ⟨d, ds, rfl⟩ := List.exists_cons_of_ne_nil hne
      have hd := (List.forall_mem_cons.1 hcs).1
      cases hupper : c.isUpper with
      | true => rw [isLost_of_isUpper hupper, List.cons_append, not_separates_of_small hd]
      | false =>
          rw [isLost_of_not_isUpper hupper, isDigit_eq_false_of_isAlpha hc]
          simp [hd]

/-- Behind the first letter of a word only a capital could be lost, and there is one in an acronym
alone. -/
theorem WordBefore.isLost_later {a c : Char} {xs ys rest : List Char}
    (h : WordBefore (a :: (xs ++ c :: ys)) rest) (before : List Char) :
    isLost (before ++ a :: xs) c (ys ++ rest) = false := by
  have hxs : ∀ d ∈ xs, d.isAlphanum = true := fun d hd => h.isAlphanum d (by simp [hd])
  cases hupper : c.isUpper with
  | true =>
      cases h with
      | acronym ha hcs hrest =>
          have hys : ∀ d ∈ ys, isCapital d = true := fun d hd => hcs d (by simp [hd])
          rw [isLost_of_isUpper hupper, not_separates_of_endsAcronym hys hrest]
      | plain ha hne hcs hrest =>
          rw [isUpper_eq_false_of_isSmall (hcs c (by simp))] at hupper
          cases hupper
  | false =>
      rw [isLost_of_not_isUpper hupper, leads_append_cons h.isAlpha_head hxs, Bool.false_and]

theorem WordBefore.isLost_eq_false {w rest : List Char} (h : WordBefore w rest)
    (before : List Char) {xs ys : List Char} {c : Char} (hw : w = xs ++ c :: ys) :
    isLost (before ++ xs) c (ys ++ rest) = false := by
  subst hw
  cases xs with
  | nil => rw [List.append_nil]; exact h.isLost_first before
  | cons a xs => exact h.isLost_later before

theorem isLost_of_wordLength? {before cs : List Char} {c : Char}
    (h : wordLength? (c :: cs) = none) (hlead : isSmall c = true → leads before = true)
    (hc : c.isAlphanum = true) : isLost before c cs = true := by
  obtain ⟨hplain, hacronym⟩ := wordLength?_eq_none h
  cases hupper : c.isUpper with
  | true =>
      have halpha : c.isAlpha = true := Bool.or_eq_true_iff.2 (.inl hupper)
      rw [isLost_of_isUpper hupper]
      exact separates_of_not_endsAcronym (hplain halpha) (hacronym hupper)
  | false =>
      rw [isLost_of_not_isUpper hupper, hlead (isSmall_of_isAlphanum hc hupper), Bool.true_and]
      cases hdigit : c.isDigit with
      | true => rfl
      | false =>
          have halpha : c.isAlpha = true := by simpa [Char.isAlphanum, hdigit] using hc
          have hnext := hplain halpha
          cases cs with
          | nil => rfl
          | cons d cs => simp [hnext d rfl]

/-- The words of a text consist of the letters and digits that are not lost, if the text before it
ends where the scanner may come to a small letter or a digit, or it starts with neither. -/
theorem flatten_words {before cs : List Char}
    (h : ∀ d ∈ cs.head?, isSmall d = true → leads before = true) :
    (words cs).flatten = keptAfter before cs := by
  fun_induction words cs generalizing before with
  | case1 => rfl
  | case2 c cs n hn ih =>
      obtain ⟨m, hm, hw⟩ := wordBefore_of_wordLength? hn
      obtain rfl := Nat.succ.inj hm
      have hsplit : c :: cs = c :: cs.take n ++ cs.drop n := by simp
      have hkept := keptAfter_append fun xs d ys hxs =>
        ⟨hw.isAlphanum d (by rw [hxs]; simp), hw.isLost_eq_false before hxs⟩
      rw [List.flatten_cons, hsplit, hkept, ih fun d hd hsmall => ?_]
      rw [hw.head d hd] at hsmall
      cases hsmall
  | case3 c cs hn ih =>
      have hnone : wordLength? (c :: cs) = none := by
        cases hm : wordLength? (c :: cs) with
        | none => rfl
        | some m =>
            obtain ⟨n, rfl, -⟩ := wordBefore_of_wordLength? hm
            exact absurd hm (hn n)
      rw [keptAfter_of_not_kept (isLost_of_wordLength? hnone (h c rfl)), ih fun d hd hsmall => ?_]
      rw [leads_append_singleton]
      split
      · rename_i hc
        cases halpha : c.isAlpha with
        | true =>
            rw [(wordLength?_eq_none hnone).1 halpha d hd] at hsmall
            cases hsmall
        | false =>
            have hdigit : c.isDigit = true := by simpa [Char.isAlphanum, halpha] using hc
            rw [h c rfl (by simp [isSmall, hdigit]), hdigit, Bool.true_and]
      · rfl

/-! ## What is kept -/

theorem keptAfter_sublist (before cs : List Char) :
    (keptAfter before cs).Sublist (cs.filter Char.isAlphanum) := by
  induction cs generalizing before with
  | nil => exact .slnil
  | cons c cs ih =>
      rw [keptAfter, List.filter_cons]
      cases hc : c.isAlphanum with
      | false => exact ih _
      | true =>
          cases hlost : isLost before c cs with
          | false => exact (ih _).cons_cons c
          | true => exact (ih _).cons c

theorem forall_append_cons_iff {P : List Char → Char → List Char → Prop} {c : Char}
    {cs : List Char} :
    (∀ xs d ys, c :: cs = xs ++ d :: ys → P xs d ys) ↔
      P [] c cs ∧ ∀ xs d ys, cs = xs ++ d :: ys → P (c :: xs) d ys := by
  constructor
  · exact fun h => ⟨h [] c cs rfl, fun xs d ys hcs => h (c :: xs) d ys (by rw [hcs]; rfl)⟩
  · rintro ⟨hc, h⟩ xs d ys hcs
    cases xs with
    | nil =>
        obtain ⟨rfl, rfl⟩ := List.cons.inj hcs
        exact hc
    | cons x xs =>
        obtain ⟨rfl, htail⟩ := List.cons.inj hcs
        exact h xs d ys htail

/-- All letters and digits are kept just if none is lost. -/
theorem keptAfter_eq_filter_iff {before cs : List Char} :
    keptAfter before cs = cs.filter Char.isAlphanum ↔
      ∀ xs c ys, cs = xs ++ c :: ys → c.isAlphanum = true → isLost (before ++ xs) c ys = false := by
  induction cs generalizing before with
  | nil => simp [keptAfter]
  | cons c cs ih =>
      have htail := @ih (before ++ [c])
      simp only [List.append_assoc, List.singleton_append] at htail
      rw [forall_append_cons_iff, ← htail, List.append_nil, keptAfter, List.filter_cons]
      cases hc : c.isAlphanum with
      | false => simp
      | true =>
          cases hlost : isLost before c cs with
          | false => simp
          | true =>
              -- One letter is missing already, so there are too few of them.
              have hlength := (keptAfter_sublist (before ++ [c]) cs).length_le
              refine iff_of_false (fun heq => ?_) fun hall => Bool.noConfusion (hall.1 rfl)
              have hmore := congrArg List.length heq
              simp only [Bool.not_true, Bool.and_false, Bool.false_eq_true, if_false, if_true,
                List.length_cons] at hmore
              omega

/-- Without underscores snake case consists of the letters and digits that are not lost. It has all
letters and digits of the text just if none of them is lost. -/
theorem letters_snakeCase (text : String) :
    (snakeCase text).toList.filter (· ≠ '_') = (keptAfter [] text.toList).map Char.toLower ∧
      ((snakeCase text).toList.filter (· ≠ '_') =
          (text.toList.filter Char.isAlphanum).map Char.toLower ↔
        ∀ before c after, text.toList = before ++ c :: after → c.isAlphanum = true →
          isLost before c after = false) := by
  have hletters : (snakeCase text).toList.filter (· ≠ '_') =
      (keptAfter [] text.toList).map Char.toLower := by
    have hwords : (words text.toList).flatten = keptAfter [] text.toList :=
      flatten_words fun d hd hsmall => rfl
    rw [toList_snakeCase, Text.filter_intercalate fun w hw => (isLowerWord_of_mem w hw).not_mem,
      ← List.map_flatten, hwords]
  refine ⟨hletters, ?_⟩
  rw [hletters]
  constructor
  · intro heq
    have hlength :
        (keptAfter [] text.toList).length = (text.toList.filter Char.isAlphanum).length := by
      simpa using congrArg List.length heq
    exact keptAfter_eq_filter_iff.1 ((keptAfter_sublist _ _).eq_of_length hlength)
  · intro hall
    rw [keptAfter_eq_filter_iff.2 hall]

/-- An acronym in front of a separator is lost. -/
theorem letters_snakeCase_acronym :
    snakeCase "XML_Parser" = "parser" ∧
      (snakeCase "XML_Parser").toList.filter (· ≠ '_') ≠
        ("XML_Parser".toList.filter Char.isAlphanum).map Char.toLower := by
  have h : snakeCase "XML_Parser" = "parser" := by decide +kernel
  exact ⟨h, by rw [h]; decide⟩

end TreePaths.SnakeCase
