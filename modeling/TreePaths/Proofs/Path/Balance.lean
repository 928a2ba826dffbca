import TreePaths.Proofs.Path.Brackets

/-!
# Balanced texts

What the scanners find can be said by counting brackets in the beginnings of a text. A text is
balanced if as many brackets are closed in it as opened, and no beginning of it closes more than it
opens. A bar stands outside of brackets if as many are closed before it as opened, and the outer
parts of a text are what such bars separate.

A text has alternatives if and only if it is balanced, and then they are its outer parts
(`alternatives?_eq_some_outerParts_iff`).
-/

namespace TreePaths.Brackets

/-- Every bracket of the text has its partner in it. -/
def Balanced (cs : List Char) : Prop :=
  (∀ xs, xs <+: cs → xs.count ']' ≤ xs.count '[') ∧ cs.count '[' = cs.count ']'

/-- The parts of a text between its bars outside of brackets. -/
def outerParts (cs : List Char) : List (List Char) :=
  (cs.zipIdx.splitOnP fun (c, i) =>
    c = '|' ∧ (cs.take i).count '[' = (cs.take i).count ']').map fun part => part.map Prod.fst

theorem depth?_append_singleton {n m k : Nat} {xs : List Char} {c : Char}
    (hxs : depth? n xs = some m) (hc : step? m c = some k) : depth? n (xs ++ [c]) = some k := by
  rw [depth?_append, hxs, Option.bind_some, depth?_cons, hc]
  rfl

theorem forall_prefix_cons {P : List Char → Prop} (hnil : P []) {c : Char} {cs : List Char} :
    (∀ xs, xs <+: c :: cs → P xs) ↔ ∀ ys, ys <+: cs → P (c :: ys) := by
  constructor
  · exact fun h ys hys => h _ (List.cons_prefix_cons.2 ⟨rfl, hys⟩)
  · intro h xs hxs
    rcases List.prefix_cons_iff.1 hxs with rfl | ⟨ys, rfl, hys⟩
    · exact hnil
    · exact h ys hys

theorem count_of_step? {n m : Nat} {c : Char} (h : step? n c = some m) (cs : List Char) :
    n + (c :: cs).count '[' + cs.count ']' = m + (c :: cs).count ']' + cs.count '[' := by
  obtain ⟨rfl, rfl⟩ | ⟨rfl, rfl⟩ | ⟨ho, hc, rfl⟩ := step?_eq_some_iff.1 h
  · rw [List.count_cons_self, List.count_cons_of_ne (by decide)]
    omega
  · rw [List.count_cons_self, List.count_cons_of_ne (by decide)]
    omega
  · rw [List.count_cons_of_ne ho, List.count_cons_of_ne hc]
    omega

/-- Brackets pair up behind `n` open ones, and leave `m` open, if and only if the counts say so. -/
theorem depth?_eq_some_iff {n m : Nat} {cs : List Char} :
    depth? n cs = some m ↔
      (∀ xs, xs <+: cs → xs.count ']' ≤ n + xs.count '[') ∧
        n + cs.count '[' = m + cs.count ']' := by
  induction cs generalizing n with
  | nil => simp [List.prefix_nil]
  | cons c cs ih =>
      rw [depth?_cons, forall_prefix_cons (by simp)]
      cases hs : step? n c with
      | none =>
          obtain ⟨rfl, rfl⟩ := step?_eq_none_iff.1 hs
          simp only [Option.bind_none, reduceCtorEq, false_iff]
          intro h
          simpa using h.1 [] List.nil_prefix
      | some k =>
          have hk := count_of_step? hs
          rw [Option.bind_some, ih]
          refine and_congr (forall₂_congr fun ys _ => ?_) ?_
          · have := hk ys
            omega
          · have := hk cs
            omega

theorem balanced_iff {cs : List Char} : Balanced cs ↔ depth? 0 cs = some 0 := by
  rw [depth?_eq_some_iff]
  simp [Balanced]

/-! ## Outer parts -/

/-- The outer parts of a text, where the brackets in a text before it count as well. -/
def outerPartsAfter (before cs : List Char) : List (List Char) :=
  ((cs.zipIdx before.length).splitOnP fun (c, i) =>
    c = '|' ∧ ((before ++ cs).take i).count '[' = ((before ++ cs).take i).count ']').map
      fun part => part.map Prod.fst

theorem outerPartsAfter_nil (before : List Char) : outerPartsAfter before [] = [[]] := by
  simp [outerPartsAfter, List.splitOnP_nil]

theorem outerPartsAfter_cons (before : List Char) (c : Char) (cs : List Char) :
    outerPartsAfter before (c :: cs) =
      if c = '|' ∧ before.count '[' = before.count ']' then
        [] :: outerPartsAfter (before ++ [c]) cs
      else (outerPartsAfter (before ++ [c]) cs).modifyHead (c :: ·) := by
  unfold outerPartsAfter
  rw [List.zipIdx_cons, List.splitOnP_cons_eq_if_modifyHead]
  simp only [List.take_left, List.append_assoc, List.singleton_append, List.length_append,
    List.length_singleton, decide_eq_true_eq]
  generalize List.splitOnP _ (cs.zipIdx (before.length + 1)) = parts
  split
  · rfl
  · cases parts <;> rfl

theorem outerPartsAfter_of_alternatives? {before cs : List Char} {n : Nat}
    {alts : List (List Char)} (hb : depth? 0 before = some n)
    (h : alternatives? n cs = some alts) : outerPartsAfter before cs = alts := by
  induction cs generalizing before n alts with
  | nil =>
      cases n with
      | zero =>
          rw [alternatives?_nil_zero, Option.some.injEq] at h
          rw [outerPartsAfter_nil, h]
      | succ n => simp [alternatives?_nil_succ] at h
  | cons c cs ih =>
      -- The scanner carries the number of open brackets, which the counts before give as well.
      have hcount := (depth?_eq_some_iff.1 hb).2
      have hcut : c = '|' ∧ before.count '[' = before.count ']' ↔ c = '|' ∧ n = 0 :=
        and_congr_right fun _ => by omega
      rw [outerPartsAfter_cons]
      by_cases hc : c = '|' ∧ n = 0
      · obtain ⟨rfl, rfl⟩ := hc
        rw [alternatives?_bar, Option.map_eq_some_iff] at h
        obtain ⟨rest, hrest, rfl⟩ := h
        rw [if_pos (hcut.2 ⟨rfl, rfl⟩), ih (depth?_append_singleton hb (step?_bar 0)) hrest]
      · rw [alternatives?_cons hc, Option.bind_eq_some_iff] at h
        obtain ⟨m, hm, h⟩ := h
        obtain ⟨rest, hrest, rfl⟩ := Option.map_eq_some_iff.1 h
        rw [if_neg (mt hcut.1 hc), ih (depth?_append_singleton hb hm) hrest]

/-- A text has alternatives if and only if it is balanced, and they are its outer parts. -/
theorem alternatives?_eq_some_outerParts_iff {cs : List Char} {alts : List (List Char)} :
    alternatives? 0 cs = some alts ↔ Balanced cs ∧ outerParts cs = alts := by
  have hparts : ∀ {alts}, alternatives? 0 cs = some alts → outerParts cs = alts :=
    fun h => outerPartsAfter_of_alternatives? (depth?_nil 0) h
  rw [balanced_iff, ← isSome_alternatives?_iff]
  constructor
  · exact fun h => ⟨Option.isSome_of_eq_some h, hparts h⟩
  · rintro ⟨hsome, rfl⟩
    obtain ⟨alts, h⟩ := Option.isSome_iff_exists.1 hsome
    rw [hparts h, h]

example : outerParts "a[b|c]||d".toList = ["a[b|c]".toList, [], "d".toList] := by cbv

end TreePaths.Brackets
