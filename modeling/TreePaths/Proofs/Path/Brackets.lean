import Mathlib.Data.List.Induction
import Mathlib.Data.List.TakeWhile
import TreePaths.Path.Brackets

/-!
# Texts between brackets

`step? n c` counts the open brackets after one character, so a text pairs up its brackets if and
only if folding `step?` along it leads from zero to zero; `depth?` is that fold. `span?` is the same
fold for a text that is not cut either, which means that no bar stands outside of its brackets.

With these two counts the scanners lose their recursion. The alternatives of a text are exactly the
texts that rejoin to it and span from zero to zero, and the interior of a bracket is exactly a text
that pairs up its brackets and is followed by a closing one.
-/

namespace TreePaths.Brackets

/-- The number of open brackets after a character, if it does not close one too many. -/
def step? (n : Nat) (c : Char) : Option Nat :=
  if c = '[' then some (n + 1)
  else if c = ']' then
    match n with
    | 0 => none
    | n + 1 => some n
  else some n

/-- The number of open brackets after a text. -/
def depth? (n : Nat) (cs : List Char) : Option Nat := cs.foldlM step? n

/-- The number of open brackets after a text, if no bar stands outside of them. -/
def span? (n : Nat) (cs : List Char) : Option Nat :=
  cs.foldlM (fun n c => if c = '|' ∧ n = 0 then none else step? n c) n

@[simp] theorem depth?_nil (n : Nat) : depth? n [] = some n := rfl

theorem depth?_cons (n : Nat) (c : Char) (cs : List Char) :
    depth? n (c :: cs) = (step? n c).bind fun m => depth? m cs := by
  rw [depth?, List.foldlM_cons]
  rfl

@[simp] theorem span?_nil (n : Nat) : span? n [] = some n := rfl

theorem span?_cons (n : Nat) (c : Char) (cs : List Char) :
    span? n (c :: cs) =
      if c = '|' ∧ n = 0 then none else (step? n c).bind fun m => span? m cs := by
  rw [span?, List.foldlM_cons]
  split <;> rfl

theorem depth?_append (n : Nat) (xs ys : List Char) :
    depth? n (xs ++ ys) = (depth? n xs).bind fun m => depth? m ys := by
  rw [depth?, List.foldlM_append]
  rfl

theorem span?_append (n : Nat) (xs ys : List Char) :
    span? n (xs ++ ys) = (span? n xs).bind fun m => span? m ys := by
  rw [span?, List.foldlM_append]
  rfl

theorem step?_of_not_bracket {c : Char} (ho : c ≠ '[') (hc : c ≠ ']') (n : Nat) :
    step? n c = some n := by
  unfold step?
  rw [if_neg ho, if_neg hc]

theorem step?_bar (n : Nat) : step? n '|' = some n :=
  step?_of_not_bracket (by decide) (by decide) n

theorem step?_eq_some_iff {n m : Nat} {c : Char} :
    step? n c = some m ↔
      c = '[' ∧ m = n + 1 ∨ c = ']' ∧ n = m + 1 ∨ c ≠ '[' ∧ c ≠ ']' ∧ m = n := by
  unfold step?
  cases n with
  | zero => grind
  | succ n => grind

/-- Further brackets around a character stay open. -/
theorem step?_succ {n m : Nat} {c : Char} (h : step? n c = some m) :
    step? (n + 1) c = some (m + 1) := by
  rw [step?_eq_some_iff] at h ⊢
  obtain ⟨hc, rfl⟩ | ⟨hc, rfl⟩ | ⟨ho, hc, rfl⟩ := h
  · exact .inl ⟨hc, rfl⟩
  · exact .inr (.inl ⟨hc, rfl⟩)
  · exact .inr (.inr ⟨ho, hc, rfl⟩)

theorem depth?_of_span? {n m : Nat} {cs : List Char} (h : span? n cs = some m) :
    depth? n cs = some m := by
  induction cs generalizing n with
  | nil => exact h
  | cons c cs ih =>
      rw [span?_cons] at h
      split at h
      · simp at h
      · obtain ⟨k, hk, hm⟩ := Option.bind_eq_some_iff.1 h
        rw [depth?_cons, hk, Option.bind_some, ih hm]

/-- Inside a bracket no bar cuts. -/
theorem span?_succ_of_depth? {n m : Nat} {cs : List Char} (h : depth? n cs = some m) :
    span? (n + 1) cs = some (m + 1) := by
  induction cs generalizing n with
  | nil => simpa using h
  | cons c cs ih =>
      rw [depth?_cons, Option.bind_eq_some_iff] at h
      obtain ⟨k, hk, hm⟩ := h
      rw [span?_cons, if_neg (by simp), step?_succ hk, Option.bind_some, ih hm]

/-- A text without brackets and bars opens nothing and is not cut. -/
theorem span?_of_plain {cs : List Char} (h : ∀ c ∈ cs, c ≠ '[' ∧ c ≠ ']' ∧ c ≠ '|') (n : Nat) :
    span? n cs = some n := by
  induction cs with
  | nil => rfl
  | cons c cs ih =>
      rw [List.forall_mem_cons] at h
      obtain ⟨⟨ho, hc, hb⟩, hcs⟩ := h
      rw [span?_cons, if_neg (by simp [hb]), step?_of_not_bracket ho hc, Option.bind_some, ih hcs]

theorem plain_of_span? {cs : List Char} {n : Nat} (ho : '[' ∉ cs) (h : span? 0 cs = some n) :
    ∀ c ∈ cs, c ≠ '[' ∧ c ≠ ']' ∧ c ≠ '|' := by
  induction cs with
  | nil => simp
  | cons c cs ih =>
      rw [List.mem_cons, not_or] at ho
      obtain ⟨hc, ho⟩ := ho
      rw [span?_cons] at h
      split at h
      · simp at h
      · rename_i hbar
        have hclose : c ≠ ']' := by
          rintro rfl
          simp [step?] at h
        have hopen : c ≠ '[' := Ne.symm hc
        rw [step?_of_not_bracket hopen hclose, Option.bind_some] at h
        exact List.forall_mem_cons.2 ⟨⟨hopen, hclose, by simpa using hbar⟩, ih ho h⟩

/-- A text in brackets that pairs up its own is not cut. -/
theorem span?_bracketed {inside : List Char} (h : depth? 0 inside = some 0) :
    span? 0 ('[' :: (inside ++ [']'])) = some 0 := by
  rw [span?_cons, if_neg (by decide), show step? 0 '[' = some 1 from rfl, Option.bind_some,
    span?_append, span?_succ_of_depth? h]
  rfl

/-! ## Alternatives -/

theorem alternatives?_nil_zero : alternatives? 0 [] = some [[]] := rfl

theorem alternatives?_nil_succ (n : Nat) : alternatives? (n + 1) [] = none := rfl

theorem alternatives?_bar (cs : List Char) :
    alternatives? 0 ('|' :: cs) = (alternatives? 0 cs).map ([] :: ·) := by
  simp [alternatives?]

theorem alternatives?_cons {n : Nat} {c : Char} (h : ¬(c = '|' ∧ n = 0)) (cs : List Char) :
    alternatives? n (c :: cs) =
      (step? n c).bind fun m => (alternatives? m cs).map (·.modifyHead (c :: ·)) := by
  unfold step?
  cases n with
  | zero => grind [alternatives?]
  | succ n => grind [alternatives?]

/-- What is not cut moves into the first alternative. -/
theorem alternatives?_append {n m : Nat} {xs : List Char} (h : span? n xs = some m)
    (ys : List Char) :
    alternatives? n (xs ++ ys) = (alternatives? m ys).map (·.modifyHead (xs ++ ·)) := by
  induction xs generalizing n with
  | nil =>
      obtain rfl : n = m := by simpa using h
      have hid : (fun alts : List (List Char) => alts.modifyHead ([] ++ ·)) = id := by
        funext alts
        cases alts <;> rfl
      rw [hid, Option.map_id, List.nil_append]
      rfl
  | cons c xs ih =>
      rw [span?_cons] at h
      split at h
      · simp at h
      · rename_i hc
        obtain ⟨k, hk, hm⟩ := Option.bind_eq_some_iff.1 h
        rw [List.cons_append, alternatives?_cons hc, hk, Option.bind_some, ih hm, Option.map_map]
        congr 1
        funext alts
        cases alts <;> rfl

/-- What stands before the last cut of a text has been cut for good, whatever follows the text. -/
theorem exists_alternatives?_append {cs : List Char} {n : Nat} (h : depth? 0 cs = some n) :
    ∃ before last, span? 0 last = some n ∧ (last = cs ∨ ∃ xs, cs = xs ++ '|' :: last) ∧
      ∀ ys, alternatives? 0 (cs ++ ys) =
        (alternatives? n ys).map fun alts => before ++ alts.modifyHead (last ++ ·) := by
  induction cs using List.reverseRecOn generalizing n with
  | nil =>
      obtain rfl : 0 = n := Option.some.inj h
      exact ⟨[], [], rfl, .inl rfl, fun ys => alternatives?_append rfl ys⟩
  | append_singleton cs c ih =>
      rw [depth?_append, Option.bind_eq_some_iff] at h
      obtain ⟨m, hm, hc⟩ := h
      rw [depth?_cons, Option.bind_eq_some_iff] at hc
      obtain ⟨k, hk, hkn⟩ := hc
      obtain rfl : k = n := Option.some.inj hkn
      obtain ⟨before, last, hlast, hcs, hcut⟩ := ih hm
      simp only [List.append_assoc, List.singleton_append, hcut]
      by_cases hbar : c = '|' ∧ m = 0
      · -- The text is cut once more, and what follows starts a new alternative.
        obtain ⟨rfl, rfl⟩ := hbar
        obtain rfl : 0 = k := Option.some.inj hk
        refine ⟨before ++ [last], [], rfl, .inr ⟨cs, rfl⟩, fun ys => ?_⟩
        rw [alternatives?_bar, Option.map_map]
        congr 1
        funext alts
        cases alts <;> simp
      · refine ⟨before, last ++ [c], ?_, ?_, fun ys => ?_⟩
        · rw [span?_append, hlast, Option.bind_some, span?_cons, if_neg hbar, hk]
          rfl
        · rcases hcs with rfl | ⟨xs, rfl⟩
          · exact .inl rfl
          · exact .inr ⟨xs, by simp⟩
        · rw [alternatives?_cons hbar, hk, Option.bind_some, Option.map_map]
          congr 1
          funext alts
          cases alts <;> simp

/-- Alternatives are found if and only if the brackets pair up. -/
theorem isSome_alternatives?_iff {n : Nat} {cs : List Char} :
    (alternatives? n cs).isSome ↔ depth? n cs = some 0 := by
  induction cs generalizing n with
  | nil => cases n <;> simp [alternatives?_nil_zero, alternatives?_nil_succ]
  | cons c cs ih =>
      by_cases hc : c = '|' ∧ n = 0
      · obtain ⟨rfl, rfl⟩ := hc
        rw [alternatives?_bar, Option.isSome_map, ih, depth?_cons, step?_bar, Option.bind_some]
      · rw [alternatives?_cons hc, depth?_cons]
        cases step? n c with
        | none => simp
        | some m => simp [ih]

/-- A bar behind a balanced text cuts it off from what follows. -/
theorem alternatives?_append_bar {cs : List Char} {alts : List (List Char)}
    (h : alternatives? 0 cs = some alts) (ys : List Char) :
    alternatives? 0 (cs ++ '|' :: ys) = (alternatives? 0 ys).map (alts ++ ·) := by
  have hd := isSome_alternatives?_iff.1 (Option.isSome_of_eq_some h)
  obtain ⟨before, last, -, -, hcut⟩ := exists_alternatives?_append hd
  have halts : alts = before ++ [last] := by
    have hnil := hcut []
    rw [List.append_nil, h, alternatives?_nil_zero] at hnil
    simpa using hnil
  rw [hcut, alternatives?_bar, Option.map_map, halts]
  congr 1
  funext bs
  simp

/-- The first alternative starts at the depth of the text, and the others start outside of
brackets. -/
theorem span?_of_alternatives? {n : Nat} {cs : List Char} {alts : List (List Char)}
    (h : alternatives? n cs = some alts) :
    ∃ a as, alts = a :: as ∧ span? n a = some 0 ∧ (∀ b ∈ as, span? 0 b = some 0) ∧
      List.intercalate ['|'] alts = cs := by
  induction cs generalizing n alts with
  | nil =>
      cases n with
      | zero =>
          obtain rfl : [[]] = alts := by simpa [alternatives?_nil_zero] using h
          exact ⟨[], [], rfl, rfl, by simp, rfl⟩
      | succ n => simp [alternatives?_nil_succ] at h
  | cons c cs ih =>
      by_cases hc : c = '|' ∧ n = 0
      · obtain ⟨rfl, rfl⟩ := hc
        rw [alternatives?_bar, Option.map_eq_some_iff] at h
        obtain ⟨rest, hrest, rfl⟩ := h
        obtain ⟨a, as, rfl, ha, has, hcs⟩ := ih hrest
        refine ⟨[], a :: as, rfl, rfl, List.forall_mem_cons.2 ⟨ha, has⟩, ?_⟩
        rw [List.intercalate_cons_cons, hcs]
        rfl
      · rw [alternatives?_cons hc, Option.bind_eq_some_iff] at h
        obtain ⟨m, hm, h⟩ := h
        obtain ⟨rest, hrest, rfl⟩ := Option.map_eq_some_iff.1 h
        obtain ⟨a, as, rfl, ha, has, hcs⟩ := ih hrest
        refine ⟨c :: a, as, rfl, ?_, has, ?_⟩
        · rw [span?_cons, if_neg hc, hm, Option.bind_some, ha]
        · rw [List.modifyHead_cons, List.intercalate_cons_cons_left, hcs]

theorem alternatives?_intercalate {alts : List (List Char)} (hne : alts ≠ [])
    (h : ∀ a ∈ alts, span? 0 a = some 0) :
    alternatives? 0 (List.intercalate ['|'] alts) = some alts := by
  induction alts with
  | nil => exact absurd rfl hne
  | cons a as ih =>
      rw [List.forall_mem_cons] at h
      cases as with
      | nil =>
          have ha := alternatives?_append h.1 []
          rw [List.append_nil] at ha
          rw [List.intercalate_singleton, ha]
          simp [alternatives?_nil_zero]
      | cons b bs =>
          rw [List.intercalate_cons_cons, List.append_assoc, alternatives?_append h.1,
            List.singleton_append, alternatives?_bar, ih (by simp) h.2]
          simp

/-- The alternatives of a text are the texts that join to it and are not cut themselves. -/
theorem alternatives?_eq_some_iff {cs : List Char} {alts : List (List Char)} :
    alternatives? 0 cs = some alts ↔
      alts ≠ [] ∧ (∀ a ∈ alts, span? 0 a = some 0) ∧ List.intercalate ['|'] alts = cs := by
  constructor
  · intro h
    obtain ⟨a, as, rfl, ha, has, hcs⟩ := span?_of_alternatives? h
    exact ⟨by simp, List.forall_mem_cons.2 ⟨ha, has⟩, hcs⟩
  · rintro ⟨hne, h, rfl⟩
    exact alternatives?_intercalate hne h

theorem alternatives?_of_span? {cs : List Char} (h : span? 0 cs = some 0) :
    alternatives? 0 cs = some [cs] :=
  alternatives?_eq_some_iff.2 ⟨by simp, by simpa using h, List.intercalate_singleton⟩

/-! ## Interiors -/

theorem interior?_cons (n : Nat) (c : Char) (cs : List Char) :
    interior? n (c :: cs) =
      match step? n c with
      | none => some ([], cs)
      | some m => (interior? m cs).map fun (inside, rest) => (c :: inside, rest) := by
  unfold step?
  cases n with
  | zero => grind [interior?]
  | succ n => grind [interior?]

theorem step?_eq_none_iff {n : Nat} {c : Char} : step? n c = none ↔ c = ']' ∧ n = 0 := by
  unfold step?
  cases n with
  | zero => grind
  | succ n => grind

/-- The interior of a bracket pairs up its brackets, and ends where it cannot go on doing so. -/
theorem interior?_eq_some_iff {n : Nat} {cs inside rest : List Char} :
    interior? n cs = some (inside, rest) ↔
      depth? n inside = some 0 ∧ cs = inside ++ ']' :: rest := by
  induction cs generalizing n inside with
  | nil => simp [interior?]
  | cons c cs ih =>
      rw [interior?_cons]
      cases hs : step? n c with
      | none =>
          obtain ⟨rfl, rfl⟩ := step?_eq_none_iff.1 hs
          constructor
          · rintro h
            obtain ⟨rfl, rfl⟩ : [] = inside ∧ cs = rest := by simpa using h
            exact ⟨rfl, rfl⟩
          · rintro ⟨hd, hcs⟩
            cases inside with
            | nil => simpa using hcs
            | cons d inside =>
                obtain ⟨rfl, rfl⟩ : ']' = d ∧ cs = inside ++ ']' :: rest := by simpa using hcs
                simp [depth?_cons, hs] at hd
      | some m =>
          constructor
          · intro h
            obtain ⟨⟨inner, rest'⟩, hi, he⟩ := Option.map_eq_some_iff.1 h
            obtain ⟨rfl, rfl⟩ : c :: inner = inside ∧ rest' = rest := by simpa using he
            obtain ⟨hd, rfl⟩ := ih.1 hi
            exact ⟨by rw [depth?_cons, hs, Option.bind_some, hd], rfl⟩
          · rintro ⟨hd, hcs⟩
            cases inside with
            | nil =>
                obtain ⟨rfl, rfl⟩ : c = ']' ∧ cs = rest := by simpa using hcs
                obtain rfl : n = 0 := by simpa using hd
                simp [step?] at hs
            | cons d inside =>
                obtain ⟨rfl, rfl⟩ : c = d ∧ cs = inside ++ ']' :: rest := by simpa using hcs
                rw [depth?_cons, hs, Option.bind_some] at hd
                have hi := ih.2 ⟨hd, rfl⟩
                simp [hi]

/-- A bracket that is open before a text is closed in it if the text leaves none open. -/
theorem exists_interior?_of_depth? {n : Nat} {cs : List Char} (h : depth? (n + 1) cs = some 0) :
    ∃ inside rest, interior? n cs = some (inside, rest) := by
  induction cs generalizing n with
  | nil => simp at h
  | cons c cs ih =>
      rw [interior?_cons]
      cases hs : step? n c with
      | none => exact ⟨[], cs, rfl⟩
      | some m =>
          rw [depth?_cons, step?_succ hs, Option.bind_some] at h
          rcases ih h with ⟨inside, rest, hi⟩
          exact ⟨c :: inside, rest, by simp [hi]⟩

/-! ## The first bracket -/

theorem atBracket_of_not_mem {cs : List Char} (h : '[' ∉ cs) : atBracket cs = (cs, none) := by
  have hd : cs.dropWhile (· ≠ '[') = [] := by
    rw [List.dropWhile_eq_nil_iff]
    intro c hc
    exact decide_eq_true fun he => h (he ▸ hc)
  rw [atBracket, hd]

theorem atBracket_append {head : List Char} (h : '[' ∉ head) (rest : List Char) :
    atBracket (head ++ '[' :: rest) = (head, some rest) := by
  have hp : ∀ c ∈ head, decide (c ≠ '[') = true := fun c hc =>
    decide_eq_true fun he => h (he ▸ hc)
  have hd : (head ++ '[' :: rest).dropWhile (· ≠ '[') = '[' :: rest := by
    rw [List.dropWhile_append_of_pos hp]
    simp
  have ht : (head ++ '[' :: rest).takeWhile (· ≠ '[') = head := by
    rw [List.takeWhile_append_of_pos hp]
    simp
  rw [atBracket, hd, ht]

theorem atBracket_eq_some_iff {cs head rest : List Char} :
    atBracket cs = (head, some rest) ↔ '[' ∉ head ∧ cs = head ++ '[' :: rest := by
  constructor
  · intro h
    by_cases hopen : '[' ∈ cs
    · obtain ⟨before, after, rfl, hbefore⟩ := List.eq_append_cons_of_mem hopen
      rw [atBracket_append hbefore] at h
      obtain ⟨rfl, rfl⟩ : before = head ∧ after = rest := by simpa using h
      exact ⟨hbefore, rfl⟩
    · rw [atBracket_of_not_mem hopen] at h
      simp at h
  · rintro ⟨hopen, rfl⟩
    exact atBracket_append hopen rest

end TreePaths.Brackets
