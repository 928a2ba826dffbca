import TreePaths.Proofs.Path.Language
import TreePaths.Proofs.Path.Names

/-!
# Alternatives that name nothing

An alternative without a significant character consists of colons and commas. It is read as no path,
if it is read at all; for a comma before the last segment is an error even where no name stands on
either side of it, so all of its commas have to stand in one segment. What some alternatives are
read as is decided by the significant ones, but whether they are read is not.
-/

namespace TreePaths.Path

variable {cs : List Char} {room : Nat}

theorem isSignificant_eq_false_iff : isSignificant cs = false ↔ ∀ c ∈ cs, c = ':' ∨ c = ',' := by
  simp only [isSignificant, List.any_eq_false, decide_eq_true_eq, not_and_or, not_not]

theorem parts_eq_nil {sep : Char} (h : ∀ c ∈ cs, c = sep) : Text.parts sep cs = [] := by
  refine List.eq_nil_iff_forall_not_mem.2 fun f hf => ?_
  obtain ⟨c, hc⟩ := List.exists_mem_of_ne_nil f (Text.ne_nil_of_mem_parts hf)
  obtain rfl := h c (Text.mem_of_mem_parts hf hc)
  exact Text.not_mem_of_mem_parts hf hc

/-- The segments of an alternative that names nothing are made of commas. -/
theorem eq_comma_of_mem_segments (h : isSignificant cs = false) {s : List Char}
    (hs : s ∈ Text.parts ':' cs) : ∀ c ∈ s, c = ',' := by
  intro c hc
  rcases isSignificant_eq_false_iff.1 h c (Text.mem_of_mem_parts hs hc) with rfl | hcomma
  · exact absurd hc (Text.not_mem_of_mem_parts hs)
  · exact hcomma

theorem Head.ofText?_of_not_isSignificant (h : isSignificant cs = false) {head : Head} :
    ofText? cs = some head ↔ (segments ':' cs).length ≤ 1 ∧ head = ⟨[], []⟩ := by
  have hlast : Text.parts ',' ((Text.parts ':' cs).getLast?.getD []) = [] := by
    cases hl : (Text.parts ':' cs).getLast? with
    | none => rfl
    | some s => exact parts_eq_nil (eq_comma_of_mem_segments h (List.mem_of_getLast? hl))
  have hsingle : (∀ s ∈ (Text.parts ':' cs).dropLast, ',' ∉ s) ↔
      (Text.parts ':' cs).dropLast = [] := by
    constructor
    · intro hcomma
      refine List.eq_nil_iff_forall_not_mem.2 fun s hs => hcomma s hs ?_
      have hmem := (List.dropLast_sublist _).subset hs
      obtain ⟨c, hc⟩ := List.exists_mem_of_ne_nil s (Text.ne_nil_of_mem_parts hmem)
      obtain rfl := eq_comma_of_mem_segments h hmem c hc
      exact hc
    · intro hnil
      simp [hnil]
  have hlength : (segments ':' cs).length ≤ 1 ↔ (Text.parts ':' cs).dropLast = [] := by
    rw [← parts_eq_segments, ← List.length_eq_zero_iff, List.length_dropLast]
    omega
  obtain ⟨chain, names⟩ := head
  rw [ofText?_eq_some_iff, hlast, hsingle, hlength, Head.mk.injEq]
  refine and_congr_right fun hnil => ?_
  simp [hnil, eq_comm]

/-- An alternative that names nothing is read as no path, if its commas stand in one segment, and is
not read otherwise. -/
theorem reads_iff_of_not_isSignificant (h : isSignificant cs = false) {p : Option Path} :
    Reads room cs p ↔ (segments ':' cs).length ≤ 1 ∧ p = none := by
  have hopen : '[' ∉ cs := by
    intro hc
    simpa using isSignificant_eq_false_iff.1 h _ hc
  constructor
  · intro hp
    cases hp with
    | bare _ hhead =>
        obtain ⟨hlength, rfl⟩ := (Head.ofText?_of_not_isSignificant h).1 hhead
        exact ⟨hlength, rfl⟩
    | push hcs => exact absurd (by simp [hcs]) hopen
    | each hcs => exact absurd (by simp [hcs]) hopen
  · rintro ⟨hlength, rfl⟩
    exact .bare hopen ((Head.ofText?_of_not_isSignificant h).2 ⟨hlength, rfl⟩)

/-- A bracket always makes a path. -/
theorem Reads.not_mem_open {p : Option Path} (h : Reads room cs p) (hp : p = none) :
    '[' ∉ cs := by
  cases h with
  | bare hopen => exact hopen
  | push => cases hp
  | each => cases hp

/-- What is read is a path just if it holds anything but colons and commas. -/
theorem Reads.isSome_eq {p : Option Path} (h : Reads room cs p)
    (hcs : Brackets.span? 0 cs = some 0) : p.isSome = isSignificant cs := by
  cases hsig : isSignificant cs with
  | false =>
      rw [((reads_iff_of_not_isSignificant hsig).1 h).2]
      rfl
  | true =>
      cases p with
      | some p => rfl
      | none =>
          -- Without names, only brackets could be significant, and those make a path.
          have hdelims := words_eq_nil_iff.1 (h.words_eq hcs)
          have hplain := Brackets.plain_of_span? (h.not_mem_open rfl) hcs
          have hblank : ∀ c ∈ cs, c = ':' ∨ c = ',' := by
            intro c hc
            have hd := hdelims c hc
            have hp := hplain c hc
            simp only [delimiters, List.mem_cons, List.not_mem_nil, or_false] at hd
            tauto
          rw [isSignificant_eq_false_iff.2 hblank] at hsig
          cases hsig

/-- Significant alternatives that are read are read as paths. -/
theorem forall₂_reads_some {alts : List (List Char)} {found : List (Option Path)}
    (h : List.Forall₂ (Reads room) alts found)
    (halts : ∀ a ∈ alts, Brackets.span? 0 a = some 0 ∧ isSignificant a = true) :
    List.Forall₂ (fun a p => Reads room a (some p)) alts (found.filterMap id) := by
  induction h with
  | nil => exact .nil
  | @cons a p alts found hp _ ih =>
      rw [List.forall_mem_cons] at halts
      have hsome := hp.isSome_eq halts.1.1
      rw [halts.1.2, Option.isSome_iff_exists] at hsome
      rcases hsome with ⟨q, rfl⟩
      exact .cons hp (ih halts.2)

/-- What an alternative is read as comes before what the others are read as. -/
theorem exists_forall₂_reads_cons_iff {a : List Char} {alts : List (List Char)} {ps : List Path} :
    (∃ found, List.Forall₂ (Reads room) (a :: alts) found ∧ found.filterMap id = ps) ↔
      ∃ p qs, Reads room a p ∧
        (∃ found, List.Forall₂ (Reads room) alts found ∧ found.filterMap id = qs) ∧
        p.toList ++ qs = ps := by
  have hcons : ∀ (p : Option Path) (found : List (Option Path)),
      (p :: found).filterMap id = p.toList ++ found.filterMap id := by
    intro p found
    cases p <;> rfl
  constructor
  · rintro ⟨_, h, rfl⟩
    obtain ⟨p, found, hp, hfound, rfl⟩ := List.forall₂_cons_left_iff.1 h
    exact ⟨p, _, hp, ⟨found, hfound, rfl⟩, (hcons p found).symm⟩
  · rintro ⟨p, _, hp, ⟨found, hfound, rfl⟩, rfl⟩
    exact ⟨p :: found, .cons hp hfound, hcons p found⟩

/-- Some alternatives are read if the significant ones are, and the commas of each other one stand
in one segment. They are read as the paths that the significant ones are read as. -/
theorem exists_forall₂_reads_iff {alts : List (List Char)} {ps : List Path} :
    (∃ found, List.Forall₂ (Reads room) alts found ∧ found.filterMap id = ps) ↔
      (∀ a ∈ alts, isSignificant a = false → (segments ':' a).length ≤ 1) ∧
        ∃ found, List.Forall₂ (Reads room) (alts.filter isSignificant) found ∧
          found.filterMap id = ps := by
  induction alts generalizing ps with
  | nil => simp
  | cons a alts ih =>
      rw [exists_forall₂_reads_cons_iff, List.forall_mem_cons]
      simp only [ih]
      cases ha : isSignificant a with
      | true =>
          rw [List.filter_cons_of_pos ha, exists_forall₂_reads_cons_iff]
          constructor
          · rintro ⟨p, qs, hp, ⟨hblank, hqs⟩, hps⟩
            exact ⟨⟨by simp, hblank⟩, p, qs, hp, hqs, hps⟩
          · rintro ⟨⟨-, hblank⟩, p, qs, hp, hqs, hps⟩
            exact ⟨p, qs, hp, ⟨hblank, hqs⟩, hps⟩
      | false =>
          rw [List.filter_cons_of_neg (by simp [ha])]
          simp only [reads_iff_of_not_isSignificant ha]
          constructor
          · rintro ⟨_, _, ⟨hlength, rfl⟩, ⟨hblank, hps⟩, rfl⟩
            exact ⟨⟨fun _ => hlength, hblank⟩, hps⟩
          · rintro ⟨⟨hlength, hblank⟩, hps⟩
            exact ⟨none, ps, ⟨hlength trivial, rfl⟩, ⟨hblank, hps⟩, rfl⟩

end TreePaths.Path
