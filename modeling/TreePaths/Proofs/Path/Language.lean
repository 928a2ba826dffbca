import TreePaths.Proofs.Path.Balance
import TreePaths.Proofs.Path.Canonical

/-!
# The language of alternatives

`IsAlternative limit level cs` describes the alternatives of a path expression without saying how
they are read. It speaks of segments between separators, of balanced texts and of their outer parts
only, and it counts levels of brackets upwards, from zero outside of all brackets to `limit`.

`isAlternative_iff` says that a text which is not cut is an alternative at a level if and only if it
is read within the room that is left there.
-/

namespace TreePaths.Path

/-- The nonempty texts between separators. -/
def segments (sep : Char) (cs : List Char) : List (List Char) :=
  (cs.splitOn sep).filter fun s => s ≠ []

theorem parts_eq_segments (sep : Char) (cs : List Char) : Text.parts sep cs = segments sep cs := by
  rw [Text.parts, Text.fields_eq_splitOn, segments]

/-- A text that may stand before a bracket, or alone. -/
structure IsHead (cs : List Char) : Prop where
  plain : ∀ c ∈ cs, c ≠ '[' ∧ c ≠ ']' ∧ c ≠ '|'
  /-- Only the last segment may list names. -/
  single : ∀ s ∈ (segments ':' cs).dropLast, ',' ∉ s

/-- An alternative with `level` brackets around it. -/
inductive IsAlternative (limit : Nat) : Nat → List Char → Prop
  | bare {level : Nat} {head : List Char} (hhead : IsHead head) : IsAlternative limit level head
  /-- A bracket follows at most one name, and at most one part of its interior is significant. That
  part is an alternative one level further in. -/
  | bracketed {level : Nat} {head interior : List Char} (hhead : IsHead head)
      (hlast : ∀ s ∈ (segments ':' head).getLast?, (segments ',' s).length ≤ 1)
      (hbalanced : Brackets.Balanced interior)
      (hone : (Brackets.outerParts interior).countP isSignificant ≤ 1)
      (hlevel : ∀ a ∈ Brackets.outerParts interior, isSignificant a → level < limit)
      (hinner : ∀ a ∈ Brackets.outerParts interior, isSignificant a →
        IsAlternative limit (level + 1) a) :
      IsAlternative limit level (head ++ '[' :: (interior ++ [']']))

/-! ## Heads -/

theorem exists_ofText?_iff {cs : List Char} :
    (∃ head, Head.ofText? cs = some head) ↔ ∀ s ∈ (segments ':' cs).dropLast, ',' ∉ s := by
  simp only [Head.ofText?_eq_some_iff, parts_eq_segments]
  constructor
  · rintro ⟨head, h, -⟩
    exact h
  · exact fun h => ⟨⟨_, _⟩, h, rfl, rfl⟩

theorem length_names_le_one_iff {cs : List Char} {head : Head} (h : Head.ofText? cs = some head) :
    head.names.length ≤ 1 ↔ ∀ s ∈ (segments ':' cs).getLast?, (segments ',' s).length ≤ 1 := by
  obtain ⟨-, -, hnames⟩ := Head.ofText?_eq_some_iff.1 h
  rw [← hnames, List.length_map, parts_eq_segments, parts_eq_segments]
  cases hl : (segments ':' cs).getLast? with
  | none => simp [segments]
  | some last => simp

theorem isHead_iff {cs : List Char} :
    IsHead cs ↔ (∀ c ∈ cs, c ≠ '[' ∧ c ≠ ']' ∧ c ≠ '|') ∧ ∃ head, Head.ofText? cs = some head := by
  rw [exists_ofText?_iff]
  exact ⟨fun h => ⟨h.plain, h.single⟩, fun h => ⟨h.1, h.2⟩⟩

/-! ## Alternatives -/

theorem IsHead.not_mem_open {cs : List Char} (h : IsHead cs) : '[' ∉ cs :=
  fun hc => (h.plain '[' hc).1 rfl

theorem IsAlternative.exists_reads {limit level : Nat} {cs : List Char}
    (h : IsAlternative limit level cs) {room : Nat} (hroom : level + room = limit) :
    ∃ p, Reads room cs p := by
  induction h generalizing room with
  | bare hhead =>
      obtain ⟨head, h⟩ := (isHead_iff.1 hhead).2
      exact ⟨_, .bare hhead.not_mem_open h⟩
  | @bracketed level text interior hhead hlast hbalanced hone hlevel _ ih =>
      obtain ⟨head, h⟩ := (isHead_iff.1 hhead).2
      have hnames := (length_names_le_one_iff h).2 hlast
      have halts := Brackets.alternatives?_eq_some_outerParts_iff.2 ⟨hbalanced, rfl⟩
      rw [List.countP_eq_length_filter] at hone
      -- Without a significant part the bracket appends, and with one it goes on there.
      match hsig : (Brackets.outerParts interior).filter isSignificant, hone with
      | [], _ => exact ⟨_, .push rfl hhead.not_mem_open h hnames halts hsig⟩
      | [inner], _ =>
          obtain ⟨hmem, hinner⟩ : inner ∈ Brackets.outerParts interior ∧ isSignificant inner := by
            rw [← List.mem_filter, hsig]
            exact List.mem_singleton_self inner
          cases room with
          | zero =>
              have hlt := hlevel inner hmem hinner
              omega
          | succ room =>
              obtain ⟨p, hp⟩ := @ih inner hmem hinner room (by omega)
              exact ⟨_, .each rfl hhead.not_mem_open h hnames halts hsig hp⟩

/-- What the two ways to read a bracket share. -/
theorem isAlternative_of_interior {limit level : Nat} {text inside : List Char} {head : Head}
    {alts : List (List Char)}
    (hspan : Brackets.span? 0 (text ++ '[' :: (inside ++ [']'])) = some 0) (hopen : '[' ∉ text)
    (hhead : Head.ofText? text = some head) (hnames : head.names.length ≤ 1)
    (halts : Brackets.alternatives? 0 inside = some alts)
    (hone : (alts.filter isSignificant).length ≤ 1)
    (hinner : ∀ a ∈ alts.filter isSignificant, level < limit ∧ IsAlternative limit (level + 1) a) :
    IsAlternative limit level (text ++ '[' :: (inside ++ [']'])) := by
  obtain ⟨hbalanced, rfl⟩ := Brackets.alternatives?_eq_some_outerParts_iff.1 halts
  refine .bracketed (isHead_iff.2 ⟨span?_head hopen hspan, head, hhead⟩)
    ((length_names_le_one_iff hhead).1 hnames) hbalanced ?_ ?_ ?_
  · rwa [List.countP_eq_length_filter]
  · exact fun a ha hsig => (hinner a (List.mem_filter.2 ⟨ha, hsig⟩)).1
  · exact fun a ha hsig => (hinner a (List.mem_filter.2 ⟨ha, hsig⟩)).2

theorem Reads.isAlternative {limit room : Nat} {cs : List Char} {p : Option Path}
    (h : Reads room cs p) (hcs : Brackets.span? 0 cs = some 0) {level : Nat}
    (hroom : level + room = limit) : IsAlternative limit level cs := by
  induction h generalizing level with
  | bare hopen hhead => exact .bare (isHead_iff.2 ⟨Brackets.plain_of_span? hopen hcs, _, hhead⟩)
  | push htext hopen hhead hone halts hnone =>
      subst htext
      exact isAlternative_of_interior hcs hopen hhead hone halts (by simp [hnone])
        (by simp [hnone])
  | each htext hopen hhead hone halts hinner _ ih =>
      subst htext
      refine isAlternative_of_interior hcs hopen hhead hone halts (by simp [hinner]) ?_
      rw [hinner, List.forall_mem_singleton]
      exact ⟨by omega, ih (span?_of_significant halts hinner) (by omega)⟩

/-- A text that is not cut is an alternative if and only if it is read. -/
theorem isAlternative_iff {limit level room : Nat} (hroom : level + room = limit) {cs : List Char}
    (hcs : Brackets.span? 0 cs = some 0) : IsAlternative limit level cs ↔ ∃ p, Reads room cs p :=
  ⟨fun h => h.exists_reads hroom, fun ⟨_, h⟩ => h.isAlternative hcs hroom⟩

end TreePaths.Path
