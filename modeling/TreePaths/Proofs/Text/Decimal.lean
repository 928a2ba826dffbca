import Mathlib.Data.List.Induction
import TreePaths.Text.Decimal

/-!
# Spellings of a number

A number has one decimal text, but it can be spelled in many more ways: zeros may stand in front of
the digits, and a plus sign in front of the zeros. `index?` reads just the spellings of the numbers
that fit, so that keys which differ may stand for the same index.

Runs of digits are taken apart from their end, as each digit adds one place to the number that the
digits before it stand for.
-/

namespace TreePaths.Decimal

/-- A text that stands for a number: its decimal text after any zeros, with or without a plus sign
in front. -/
def Spells (text : String) (n : Nat) : Prop :=
  ∃ sign ∈ ["", "+"], ∃ zeros,
    text = sign ++ String.ofList (List.replicate zeros '0') ++ n.repr

theorem exists_digitChar_eq {c : Char} (h : c.isDigit = true) : ∃ d < 10, c = d.digitChar := by
  have hc : 48 ≤ c.toNat ∧ c.toNat ≤ 57 := Char.isDigit_iff_toNat.1 h
  refine ⟨c.toNat - 48, by omega, Char.toNat_inj.1 ?_⟩
  rw [Nat.toNat_digitChar_of_lt_ten (by omega)]
  omega

theorem value?_eq_some_iff {cs : List Char} {n : Nat} :
    value? cs = some n ↔
      cs ≠ [] ∧ cs.all Char.isDigit = true ∧ Nat.ofDigitChars 10 cs 0 = n := by
  rw [value?, Option.ite_none_right_eq_some, Option.some.injEq, and_assoc]

/-- A digit behind a number after some zeros makes another number after some zeros. -/
theorem exists_zeros_append_digitChar (zeros m : Nat) {d : Nat} (hd : d < 10) :
    ∃ zeros', List.replicate zeros '0' ++ Nat.toDigits 10 m ++ [d.digitChar] =
      List.replicate zeros' '0' ++ Nat.toDigits 10 (10 * m + d) := by
  rw [← Nat.toDigits_of_lt_base hd]
  rcases Nat.eq_zero_or_pos m with rfl | hm
  · -- The text of zero is a zero itself, which joins those in front of it.
    refine ⟨zeros + 1, ?_⟩
    rw [Nat.toDigits_zero, List.replicate_succ', Nat.mul_zero, Nat.zero_add]
  · refine ⟨zeros, ?_⟩
    rw [List.append_assoc, Nat.toDigits_append_toDigits (by decide) hm hd]

/-- A run of digits is the decimal text of what it stands for, after some zeros. -/
theorem exists_eq_of_value? {cs : List Char} {n : Nat} (h : value? cs = some n) :
    ∃ zeros, cs = List.replicate zeros '0' ++ Nat.toDigits 10 n := by
  induction cs using List.reverseRecOn generalizing n with
  | nil => cases h
  | append_singleton cs c ih =>
      obtain ⟨-, hall, hn⟩ := value?_eq_some_iff.1 h
      rw [List.all_append, Bool.and_eq_true, List.all_cons, List.all_nil, Bool.and_true] at hall
      obtain ⟨d, hd, rfl⟩ := exists_digitChar_eq hall.2
      rw [Nat.ofDigitChars_append, Nat.ofDigitChars_cons_digitChar_of_lt_ten hd,
        Nat.ofDigitChars_nil] at hn
      by_cases hcs : cs = []
      · rw [hcs, Nat.ofDigitChars_nil, Nat.mul_zero, Nat.zero_add] at hn
        exact ⟨0, by rw [hcs, ← hn, Nat.toDigits_of_lt_base hd]; rfl⟩
      · obtain ⟨zeros, hzeros⟩ := ih (value?_eq_some_iff.2 ⟨hcs, hall.1, rfl⟩)
        rw [hzeros, ← hn]
        exact exists_zeros_append_digitChar zeros _ hd

theorem value?_zeros_append_toDigits (zeros n : Nat) :
    value? (List.replicate zeros '0' ++ Nat.toDigits 10 n) = some n := by
  obtain ⟨hne, hall, hn⟩ := value?_eq_some_iff.1 (value?_toDigits n)
  refine value?_eq_some_iff.2 ⟨by simp, by simp [hall], ?_⟩
  rw [Nat.ofDigitChars_append, Nat.ofDigitChars_replicate_zero, Nat.mul_zero, hn]

theorem value?_eq_some_iff_exists {cs : List Char} {n : Nat} :
    value? cs = some n ↔ ∃ zeros, cs = List.replicate zeros '0' ++ Nat.toDigits 10 n := by
  constructor
  · exact exists_eq_of_value?
  · rintro ⟨zeros, rfl⟩
    exact value?_zeros_append_toDigits zeros n

theorem spells_iff {text : String} {n : Nat} :
    Spells text n ↔
      value? text.toList = some n ∨
        text.toList.head? = some '+' ∧ value? text.toList.tail = some n := by
  have hunsigned : ∀ zeros, ("" ++ String.ofList (List.replicate zeros '0') ++ n.repr).toList =
      List.replicate zeros '0' ++ Nat.toDigits 10 n := fun zeros => by simp
  have hsigned : ∀ zeros, ("+" ++ String.ofList (List.replicate zeros '0') ++ n.repr).toList =
      '+' :: (List.replicate zeros '0' ++ Nat.toDigits 10 n) := fun zeros => by simp
  simp only [Spells, List.mem_cons, List.not_mem_nil, or_false, exists_eq_or_imp, exists_eq_left]
  simp only [← String.toList_inj, hunsigned, hsigned, value?_eq_some_iff_exists]
  refine or_congr_right ?_
  constructor
  · rintro ⟨zeros, h⟩
    rw [h]
    exact ⟨rfl, zeros, rfl⟩
  · rintro ⟨hhead, zeros, htail⟩
    obtain ⟨cs, hcs⟩ := List.head?_eq_some_iff.1 hhead
    rw [hcs, List.tail_cons] at htail
    exact ⟨zeros, by rw [hcs, htail]⟩

instance (text : String) (n : Nat) : Decidable (Spells text n) := decidable_of_iff _ spells_iff.symm

/-- The texts that stand for an index are the spellings of the numbers that fit. -/
theorem index?_eq_some_iff {text : String} {n : Nat} :
    index? text = some n ↔ Spells text n ∧ n < wordSize := by
  rw [index?, Option.filter_eq_some_iff, decide_eq_true_eq, spells_iff]
  split
  · rename_i cs hcs
    have hplus : value? ('+' :: cs) = none := by simp [value?]
    simp [hcs, hplus]
  · rename_i hne
    have hhead : text.toList.head? ≠ some '+' := fun h => by
      obtain ⟨cs, hcs⟩ := List.head?_eq_some_iff.1 h
      exact hne cs hcs
    simp [hhead]

example : Spells "7" 7 ∧ Spells "+7" 7 ∧ Spells "007" 7 ∧ ¬ Spells "7 " 7 := by decide +kernel

end TreePaths.Decimal
