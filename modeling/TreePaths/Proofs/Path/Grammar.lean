import TreePaths.Path.Grammar
import TreePaths.Proofs.Outcome
import TreePaths.Proofs.Path.Brackets

/-!
# The grammar as a relation

`Reads room cs p` says that an alternative `cs` of a path expression may be read as `p`, where
brackets are nested at most `room` deep. It has one rule for each way in which an alternative ends,
and `ofAlternative_eq_ok_iff` says that the reader finds exactly what it derives.
-/

namespace TreePaths.Path

/-- An alternative has no bracket if and only if it is all head. -/
theorem cut_eq_ok_none_iff {cs text : List Char} :
    cut cs = .ok (text, none) ↔ '[' ∉ cs ∧ text = cs := by
  by_cases hcs : '[' ∈ cs
  · obtain ⟨head, rest, rfl, hhead⟩ := List.eq_append_cons_of_mem hcs
    rw [cut, Brackets.atBracket_append hhead]
    cases hi : Brackets.interior? 0 rest with
    | none => simp [hi]
    | some found =>
        obtain ⟨inside, after⟩ := found
        cases after <;> simp [hi]
  · rw [cut, Brackets.atBracket_of_not_mem hcs]
    simp [hcs, eq_comm]

/-- The bracket of an alternative is its first one, and closes at its end. -/
theorem cut_eq_ok_some_iff {cs text inside : List Char} :
    cut cs = .ok (text, some inside) ↔
      '[' ∉ text ∧ Brackets.depth? 0 inside = some 0 ∧ cs = text ++ '[' :: (inside ++ [']']) := by
  constructor
  · intro h
    by_cases hcs : '[' ∈ cs
    · obtain ⟨head, rest, rfl, hhead⟩ := List.eq_append_cons_of_mem hcs
      rw [cut, Brackets.atBracket_append hhead] at h
      cases hi : Brackets.interior? 0 rest with
      | none => simp [hi] at h
      | some found =>
          obtain ⟨interior, after⟩ := found
          obtain ⟨hd, rfl⟩ := Brackets.interior?_eq_some_iff.1 hi
          cases after with
          | nil =>
              obtain ⟨rfl, rfl⟩ : head = text ∧ interior = inside := by simpa [hi] using h
              exact ⟨hhead, hd, rfl⟩
          | cons c after => simp [hi] at h
    · rw [cut, Brackets.atBracket_of_not_mem hcs] at h
      simp at h
  · rintro ⟨ht, hd, rfl⟩
    have hi : Brackets.interior? 0 (inside ++ [']']) = some (inside, []) :=
      Brackets.interior?_eq_some_iff.2 ⟨hd, rfl⟩
    rw [cut, Brackets.atBracket_append ht]
    simp only [hi]

/-- The first bracket of a text is found in one way only. -/
theorem bracketed_inj {text text' inside inside' : List Char} (h : '[' ∉ text) (h' : '[' ∉ text')
    (he : text ++ '[' :: (inside ++ [']']) = text' ++ '[' :: (inside' ++ [']'])) :
    text = text' ∧ inside = inside' := by
  have hcut := congrArg Brackets.atBracket he
  rw [Brackets.atBracket_append h, Brackets.atBracket_append h'] at hcut
  simpa using hcut

/-- A head is read if and only if no list of names stands before its last segment. -/
theorem Head.ofText?_eq_some_iff {cs : List Char} {head : Head} :
    ofText? cs = some head ↔
      (∀ s ∈ (Text.parts ':' cs).dropLast, ',' ∉ s) ∧
        (Text.parts ':' cs).dropLast.map String.ofList = head.chain ∧
        (Text.parts ',' ((Text.parts ':' cs).getLast?.getD [])).map String.ofList =
          head.names := by
  obtain ⟨chain, names⟩ := head
  have hany : (Text.parts ':' cs).dropLast.any (·.contains ',') = true ↔
      ¬∀ s ∈ (Text.parts ':' cs).dropLast, ',' ∉ s := by simp
  unfold ofText?
  dsimp only
  split
  · rename_i h
    simp [hany.1 h]
  · rename_i h
    rw [hany, not_not] at h
    rw [Option.some.injEq, Head.mk.injEq, and_iff_right h]

/-- An alternative is read as a path, or as no path at all, within some levels of brackets. -/
inductive Reads : Nat → List Char → Option Path → Prop
  /-- Without a bracket it is the path of its head. -/
  | bare {room : Nat} {cs : List Char} {head : Head} (hopen : '[' ∉ cs)
      (hhead : Head.ofText? cs = some head) : Reads room cs head.path?
  /-- A bracket that holds nothing appends. -/
  | push {room : Nat} {cs text inside : List Char} {head : Head} {alts : List (List Char)}
      (hcs : cs = text ++ '[' :: (inside ++ [']'])) (hopen : '[' ∉ text)
      (hhead : Head.ofText? text = some head) (hone : head.names.length ≤ 1)
      (halts : Brackets.alternatives? 0 inside = some alts)
      (hnone : alts.filter isSignificant = []) : Reads room cs (some (head.before push))
  /-- A bracket that holds one alternative goes on with what that is read as. -/
  | each {room : Nat} {cs text inside inner : List Char} {head : Head}
      {alts : List (List Char)} {p : Option Path}
      (hcs : cs = text ++ '[' :: (inside ++ [']'])) (hopen : '[' ∉ text)
      (hhead : Head.ofText? text = some head) (hone : head.names.length ≤ 1)
      (halts : Brackets.alternatives? 0 inside = some alts)
      (hinner : alts.filter isSignificant = [inner]) (hp : Reads room inner p) :
      Reads (room + 1) cs (some (head.before ((p.map each).getD push)))

theorem reads_nil (room : Nat) : Reads room [] none := by
  have hhead : Head.ofText? [] = some ⟨[], []⟩ := rfl
  exact .bare List.not_mem_nil hhead

theorem ofAlternative_of_not_mem {cs : List Char} (hopen : '[' ∉ cs) (limit room : Nat) :
    ofAlternative limit room cs =
      match Head.ofText? cs with
      | none => .error (.listBeforeEnd (String.ofList cs))
      | some head => .ok head.path? := by
  rw [ofAlternative, cut_eq_ok_none_iff.2 ⟨hopen, rfl⟩]
  cases hhead : Head.ofText? cs <;> simp only [hhead]

/-- Nothing may follow the first bracket. -/
theorem ofAlternative_trailing {text inside after : List Char} (hopen : '[' ∉ text)
    (hinside : Brackets.depth? 0 inside = some 0) (hafter : after ≠ []) (limit room : Nat) :
    ofAlternative limit room (text ++ '[' :: (inside ++ ']' :: after)) =
      .error (.afterBracket (String.ofList (text ++ '[' :: (inside ++ ']' :: after)))) := by
  have hi := Brackets.interior?_eq_some_iff.2 ⟨hinside, (Eq.refl (inside ++ ']' :: after))⟩
  rw [ofAlternative, cut, Brackets.atBracket_append hopen]
  cases after with
  | nil => exact absurd rfl hafter
  | cons c after => simp only [hi]

/-- How an alternative with a bracket at its end is read, given what the bracket is cut into. -/
theorem ofAlternative_bracketed {text inside : List Char} {alts : List (List Char)}
    (hopen : '[' ∉ text) (halts : Brackets.alternatives? 0 inside = some alts)
    (limit room : Nat) :
    ofAlternative limit room (text ++ '[' :: (inside ++ [']'])) =
      match Head.ofText? text with
      | none => .error (.listBeforeEnd (String.ofList (text ++ '[' :: (inside ++ [']']))))
      | some head =>
        if 1 < head.names.length then
          .error (.listBeforeBracket (String.ofList (text ++ '[' :: (inside ++ [']']))))
        else
          match alts.filter isSignificant, room with
          | [], _ => .ok (some (head.before push))
          | [_], 0 => .error (.tooDeep limit)
          | [inner], room + 1 =>
            (ofAlternative limit room inner).map fun inner =>
              some (head.before ((inner.map each).getD push))
          | _, _ =>
            .error (.alternativesInside (String.ofList (text ++ '[' :: (inside ++ [']'])))) := by
  have hd := Brackets.isSome_alternatives?_iff.1 (Option.isSome_of_eq_some halts)
  rw [ofAlternative, cut_eq_ok_some_iff.2 ⟨hopen, hd, rfl⟩]
  cases hhead : Head.ofText? text with
  | none => simp only [hhead]
  | some head =>
      simp only [hhead, halts]
      match alts.filter isSignificant, room with
      | [], _ => rfl
      | [_], 0 => rfl
      | [_], _ + 1 => rfl
      | _ :: _ :: _, _ => rfl

theorem reads_of_ofAlternative {limit room : Nat} {cs : List Char} {p : Option Path}
    (h : ofAlternative limit room cs = .ok p) : Reads room cs p := by
  fun_induction ofAlternative limit room cs generalizing p with
  | case3 room cs text head hhead hcut =>
      obtain ⟨hopen, rfl⟩ := cut_eq_ok_none_iff.1 hcut
      obtain rfl : head.path? = p := by simpa using h
      exact .bare hopen hhead
  | case6 room cs text head inside hhead hone alts halts hnone hcut =>
      obtain ⟨hopen, -, hcs⟩ := cut_eq_ok_some_iff.1 hcut
      obtain rfl : some (head.before push) = p := by simpa using h
      exact .push hcs hopen hhead (Nat.not_lt.1 hone) halts hnone
  | case8 cs text head inside hhead hone alts halts inner hinner room hcut ih =>
      obtain ⟨hopen, -, hcs⟩ := cut_eq_ok_some_iff.1 hcut
      obtain ⟨q, hq, rfl⟩ := Outcome.map_eq_ok_iff.1 h
      exact .each hcs hopen hhead (Nat.not_lt.1 hone) halts hinner (ih hq)
  | _ => simp at h

theorem Reads.ofAlternative_eq {limit room : Nat} {cs : List Char} {p : Option Path}
    (h : Reads room cs p) : ofAlternative limit room cs = .ok p := by
  induction h with
  | bare hopen hhead =>
      rw [ofAlternative, cut_eq_ok_none_iff.2 ⟨hopen, rfl⟩]
      simp only [hhead]
  | push hcs hopen hhead hone halts hnone =>
      have hd := Brackets.isSome_alternatives?_iff.1 (Option.isSome_of_eq_some halts)
      rw [ofAlternative, cut_eq_ok_some_iff.2 ⟨hopen, hd, hcs⟩]
      simp only [hhead, if_neg (Nat.not_lt.2 hone), halts, hnone]
  | each hcs hopen hhead hone halts hinner _ ih =>
      have hd := Brackets.isSome_alternatives?_iff.1 (Option.isSome_of_eq_some halts)
      rw [ofAlternative, cut_eq_ok_some_iff.2 ⟨hopen, hd, hcs⟩]
      simp only [hhead, if_neg (Nat.not_lt.2 hone), halts, hinner, ih, Except.map]

/-- The reader of alternatives finds what the grammar derives, and nothing else. -/
theorem ofAlternative_eq_ok_iff {limit room : Nat} {cs : List Char} {p : Option Path} :
    ofAlternative limit room cs = .ok p ↔ Reads room cs p :=
  ⟨reads_of_ofAlternative, Reads.ofAlternative_eq⟩

end TreePaths.Path
