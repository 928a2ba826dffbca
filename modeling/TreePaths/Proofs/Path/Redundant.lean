import TreePaths.Proofs.Path.Language

/-!
# Redundant delimiters

A delimiter is idle between two texts if it only separates what is separated there anyway: a colon
at the start of an alternative, behind another colon or in front of a bracket, a comma behind
another comma, and a bar that cuts off an empty alternative. An alternative with an idle delimiter
is read as it is without it, and an error is the same error, which may quote another text.

The argument follows the reader inwards. Cutting a text at its bars leaves an idle delimiter idle in
the alternative where it stands, or leaves one more empty alternative (`exists_looserList`); cutting
an alternative at its bracket leaves it idle in what the bracket holds, or in a head that says the
same without it, or behind the bracket, where anything is an error (`Looser.alike`). The induction
is on the levels of brackets.
-/

namespace TreePaths

/-- An error without the text that it quotes. -/
def GrammarError.unquoted : GrammarError → GrammarError
  | listBeforeEnd _ => listBeforeEnd ""
  | unbalanced _ => unbalanced ""
  | afterBracket _ => afterBracket ""
  | alternativesInside _ => alternativesInside ""
  | listBeforeBracket _ => listBeforeBracket ""
  | stepAfterEnd _ => stepAfterEnd ""
  | noSteps => noSteps
  | tooDeep limit => tooDeep limit

namespace Path

/-- A delimiter that separates nothing between the text before it and the text behind it. The start
of a text counts as a bar before it. -/
inductive Idle : List Char → Char → List Char → Prop
  | colon {l r : List Char} (h : ∀ d ∈ l.getLast?, d = ':' ∨ d = '[' ∨ d = '|') : Idle l ':' r
  | colonBeforeBracket {l r : List Char} : Idle l ':' ('[' :: r)
  | comma {l r : List Char} (h : l.getLast? = some ',') : Idle l ',' r
  | bar {l r : List Char} (h : ∀ d ∈ l.getLast?, d = '|') : Idle l '|' r

/-- The one text has an idle delimiter that the other one lacks. -/
def Looser (a b : List Char) : Prop :=
  ∃ l c r, Idle l c r ∧ a = l ++ c :: r ∧ b = l ++ r

/-- The same alternative, or one that has an idle delimiter more, neither of which is cut itself. -/
def SameOrLooser (a b : List Char) : Prop :=
  a = b ∨ Looser a b ∧ Brackets.span? 0 a = some 0 ∧ Brackets.span? 0 b = some 0

/-- Alternatives of which one has an idle delimiter that it lacks in the others, or between which
there is an empty one more. -/
inductive LooserList : List (List Char) → List (List Char) → Prop
  | within (before after : List (List Char)) {a b : List Char} (h : Looser a b) :
      LooserList (before ++ a :: after) (before ++ b :: after)
  | between (before after : List (List Char)) :
      LooserList (before ++ [] :: after) (before ++ after)

/-- Two alternatives whose heads say the same, and whose brackets hold the same up to an idle
delimiter. -/
inductive Alike : List Char → List Char → Prop
  | bare {a b : List Char} (ha : '[' ∉ a) (hb : '[' ∉ b)
      (hhead : Head.ofText? a = Head.ofText? b) : Alike a b
  | bracketed {text text' inside inside' after after' : List Char}
      (hopen : '[' ∉ text) (hopen' : '[' ∉ text')
      (hd : Brackets.depth? 0 inside = some 0) (hd' : Brackets.depth? 0 inside' = some 0)
      (hhead : Head.ofText? text = Head.ofText? text')
      (hinside : inside = inside' ∨ Looser inside inside')
      (hafter : after = [] ↔ after' = []) :
      Alike (text ++ '[' :: (inside ++ ']' :: after)) (text' ++ '[' :: (inside' ++ ']' :: after'))

namespace Idle

variable {l r : List Char} {c : Char}

theorem not_bracket (h : Idle l c r) : c ≠ '[' ∧ c ≠ ']' := by
  cases h <;> decide

theorem depth?_eq (h : Idle l c r) (n : Nat) :
    Brackets.depth? n (l ++ c :: r) = Brackets.depth? n (l ++ r) := by
  have hc : ∀ m, Brackets.depth? m (c :: r) = Brackets.depth? m r := by
    intro m
    rw [Brackets.depth?_cons, Brackets.step?_of_not_bracket h.not_bracket.1 h.not_bracket.2,
      Option.bind_some]
  simp only [Brackets.depth?_append, hc]

/-- A delimiter stays idle if the text before it is cut at a bar or at a bracket. -/
theorem of_append_cons {p q : List Char} {b : Char} (hb : b = '[' ∨ b = '|')
    (h : Idle (p ++ b :: q) c r) : Idle q c r := by
  have hlast : ∀ d ∈ q.getLast?, (p ++ b :: q).getLast? = some d := by
    intro d hd
    rw [List.getLast?_append, List.getLast?_cons, Option.mem_def.1 hd]
    rfl
  cases h with
  | colon h => exact .colon fun d hd => h d (hlast d hd)
  | colonBeforeBracket => exact .colonBeforeBracket
  | comma h =>
      cases hq : q.getLast? with
      | none =>
          rw [List.getLast?_append, List.getLast?_cons, hq] at h
          rcases hb with rfl | rfl <;> simp at h
      | some d => exact .comma (hq.trans ((hlast d hq).symm.trans h))
  | bar h => exact .bar fun d hd => h d (hlast d hd)

/-- A delimiter stays idle if the text behind it is cut in front of anything but a bracket. -/
theorem of_append_right {s : List Char} {b : Char} (hb : b ≠ '[') (h : Idle l c (r ++ b :: s)) :
    Idle l c r := by
  generalize hr : r ++ b :: s = t at h
  cases h with
  | colon h => exact .colon h
  | colonBeforeBracket =>
      cases r with
      | nil =>
          rw [List.nil_append, List.cons.injEq] at hr
          exact absurd hr.1 hb
      | cons d r =>
          rw [List.cons_append, List.cons.injEq] at hr
          rw [hr.1]
          exact .colonBeforeBracket
  | comma h => exact .comma h
  | bar h => exact .bar h

/-- A bar that cuts a text is idle only if it cuts off an empty alternative. -/
theorem eq_nil_of_bar (h : Idle l '|' r) (hl : Brackets.span? 0 l = some 0) : l = [] := by
  rcases List.eq_nil_or_concat' l with hnil | ⟨p, d, rfl⟩
  · exact hnil
  · cases h with
    | bar h =>
        rw [h d List.getLast?_concat, Brackets.span?_append, Option.bind_eq_some_iff] at hl
        rcases hl with ⟨m, -, hm⟩
        rw [Brackets.span?_cons, Brackets.step?_bar] at hm
        split at hm
        · cases hm
        · rename_i hne
          exact absurd ⟨rfl, Option.some.inj hm⟩ hne

/-- Right behind a closed bracket nothing is idle at the end of a text. -/
theorem ne_nil_of_close {p : List Char} (h : Idle (p ++ [']']) c r) : r ≠ [] := by
  rintro rfl
  cases h with
  | colon h => simpa using h ']' List.getLast?_concat
  | comma h => simp at h
  | bar h => simpa using h ']' List.getLast?_concat

end Idle

/-! ## Heads -/

theorem Head.ofText?_congr {cs ds : List Char} (h : Text.parts ':' cs = Text.parts ':' ds) :
    ofText? cs = ofText? ds := by
  unfold ofText?
  rw [h]

/-- A colon at the start of a head or behind another colon cuts off nothing. -/
theorem parts_append_colon {l : List Char} (hl : ∀ d ∈ l.getLast?, d = ':') (h : List Char) :
    Text.parts ':' (l ++ ':' :: h) = Text.parts ':' (l ++ h) := by
  rcases List.eq_nil_or_concat' l with rfl | ⟨p, d, rfl⟩
  · exact Text.parts_append_cons ':' [] h
  · rw [hl d List.getLast?_concat, Text.parts_append_cons, List.append_assoc,
      List.singleton_append, Text.parts_append_cons, Text.parts_append_cons, Text.parts_nil,
      List.append_nil]

/-- A comma behind another one adds nothing to a head. -/
theorem Head.ofText?_comma (xs ys : List Char) :
    ofText? (xs ++ ([',', ','] ++ ys)) = ofText? (xs ++ ([','] ++ ys)) := by
  rcases Text.exists_parts_append ':' xs ys with ⟨before, x, y, after, hparts⟩
  have htwo := hparts [',', ','] (by simp) (by simp)
  have hone := hparts [','] (by simp) (by simp)
  have hlast : Text.parts ',' (x ++ ([',', ','] ++ y)) = Text.parts ',' (x ++ ([','] ++ y)) := by
    have hnil : Text.parts ',' (',' :: y) = Text.parts ',' y := Text.parts_append_cons ',' [] y
    exact (Text.parts_append_cons ',' x (',' :: y)).trans
      ((congrArg _ hnil).trans (Text.parts_append_cons ',' x y).symm)
  unfold ofText?
  rw [htwo, hone]
  cases after with
  | nil => simp only [List.dropLast_concat, List.getLast?_concat, Option.getD_some, hlast]
  | cons s after =>
      -- A comma before the last segment is an error, however many there are.
      have hdrop : ∀ t : List Char,
          (before ++ t :: s :: after).dropLast = before ++ t :: (s :: after).dropLast := by
        intro t
        rw [List.dropLast_append_of_ne_nil (by simp), List.dropLast_cons_cons]
      simp [hdrop]

/-- A head says the same without an idle delimiter. -/
theorem Head.ofText?_idle {l h r : List Char} {c : Char} (hidle : Idle l c (h ++ r))
    (hplain : ∀ d ∈ l ++ c :: h, d ≠ '[' ∧ d ≠ ']' ∧ d ≠ '|') :
    ofText? (l ++ c :: h) = ofText? (l ++ h) := by
  have hl : ∀ d ∈ l, d ≠ '[' ∧ d ≠ ']' ∧ d ≠ '|' := fun d hd =>
    hplain d (List.mem_append_left _ hd)
  have hh : '[' ∉ h := fun hmem =>
    (hplain '[' (List.mem_append_right _ (List.mem_cons_of_mem _ hmem))).1 rfl
  generalize ht : h ++ r = t at hidle
  cases hidle with
  | colon hlast =>
      refine ofText?_congr (parts_append_colon (fun d hd => ?_) h)
      have hd' := hl d (List.mem_of_getLast? hd)
      exact (hlast d hd).resolve_right fun hor => hor.elim hd'.1 hd'.2.2
  | colonBeforeBracket =>
      -- The head ends here, so that the colon is its last character.
      have hnil : h = [] := by
        cases h with
        | nil => rfl
        | cons d h =>
            rw [List.cons_append, List.cons.injEq] at ht
            exact absurd (ht.1 ▸ List.mem_cons_self) hh
      rw [hnil, List.append_nil]
      refine ofText?_congr ?_
      rw [Text.parts_append_cons, Text.parts_nil, List.append_nil]
  | comma hlast =>
      rcases List.getLast?_eq_some_iff.1 hlast with ⟨p, rfl⟩
      simpa using ofText?_comma p h
  | bar => exact absurd rfl (hplain '|' (by simp)).2.2

/-! ## Cutting at a bracket -/

/-- The text before the first bracket of an alternative, and what that bracket holds. -/
theorem exists_bracket {text rest : List Char} (hopen : '[' ∉ text)
    (h : Brackets.span? 0 (text ++ '[' :: rest) = some 0) :
    ∃ inside after, Brackets.depth? 0 inside = some 0 ∧ rest = inside ++ ']' :: after := by
  have hd := Brackets.depth?_of_span? h
  have htext := Brackets.depth?_of_span? (Brackets.span?_of_plain (span?_head hopen h) 0)
  rw [Brackets.depth?_append, htext, Option.bind_some, Brackets.depth?_cons,
    show Brackets.step? 0 '[' = some 1 from rfl, Option.bind_some] at hd
  rcases Brackets.exists_interior?_of_depth? hd with ⟨inside, after, hi⟩
  exact ⟨inside, after, Brackets.interior?_eq_some_iff.1 hi⟩

/-- A place in a text lies before a certain element of it or behind that. -/
theorem exists_of_append_eq_append_cons {α : Type} {l r xs ys : List α} {x : α}
    (h : l ++ r = xs ++ x :: ys) :
    (∃ s, xs = l ++ s ∧ r = s ++ x :: ys) ∨ ∃ s, l = xs ++ x :: s ∧ ys = s ++ r := by
  rcases List.append_eq_append_iff.1 h with hleft | ⟨s, hl, hs⟩
  · exact .inl hleft
  · rcases List.cons_eq_append_iff.1 hs with ⟨rfl, rfl⟩ | ⟨s, rfl, rfl⟩
    · exact .inl ⟨[], by rw [hl, List.append_nil, List.append_nil], rfl⟩
    · exact .inr ⟨s, hl, rfl⟩

/-- An idle delimiter behind the first bracket stands in what it holds, or behind what closes it. -/
theorem Idle.alike_of_open {text l r : List Char} {c : Char} (htext : '[' ∉ text)
    (h : Idle (text ++ '[' :: l) c r)
    (hspan : Brackets.span? 0 (text ++ '[' :: (l ++ r)) = some 0) :
    Alike (text ++ '[' :: (l ++ c :: r)) (text ++ '[' :: (l ++ r)) := by
  rcases exists_bracket htext hspan with ⟨inside, after, hd, hrest⟩
  have hinner : Idle l c r := h.of_append_cons (.inl rfl)
  rcases exists_of_append_eq_append_cons hrest with ⟨s, rfl, rfl⟩ | ⟨s, rfl, rfl⟩
  · have hs : Idle l c s := hinner.of_append_right (by decide)
    have hd' : Brackets.depth? 0 (l ++ c :: s) = some 0 := (hs.depth?_eq 0).trans hd
    have hlooser : Looser (l ++ c :: s) (l ++ s) := ⟨l, c, s, hs, rfl, rfl⟩
    simpa using Alike.bracketed htext htext hd' hd rfl (.inr hlooser) (Iff.refl (after = []))
  · -- Something else stands behind the bracket as well, so both are the same error.
    have hafter : s ++ r ≠ [] := by
      intro hnil
      rw [List.append_eq_nil_iff] at hnil
      rw [hnil.1] at hinner
      exact hinner.ne_nil_of_close hnil.2
    have hafter' : s ++ c :: r = [] ↔ s ++ r = [] := iff_of_false (by simp) hafter
    simpa using Alike.bracketed htext htext hd hd rfl (.inl rfl) hafter'

/-- Alternatives with and without an idle delimiter are cut in the same way. -/
theorem Looser.alike {a b : List Char} (h : Looser a b) (ha : Brackets.span? 0 a = some 0)
    (hb : Brackets.span? 0 b = some 0) : Alike a b := by
  rcases h with ⟨l, c, r, hidle, rfl, rfl⟩
  have hc : '[' ≠ c := hidle.not_bracket.1.symm
  by_cases hl : '[' ∈ l
  · rcases List.eq_append_cons_of_mem hl with ⟨text, l, rfl, htext⟩
    rw [List.append_assoc, List.cons_append] at hb ⊢
    rw [List.append_assoc, List.cons_append]
    exact hidle.alike_of_open htext hb
  · by_cases hr : '[' ∈ r
    · -- The delimiter stands before the bracket.
      rcases List.eq_append_cons_of_mem hr with ⟨h, rest, rfl, hh⟩
      have hopen : '[' ∉ l ++ h := by simp [hl, hh]
      have hopen' : '[' ∉ l ++ c :: h := by simp [hl, hc, hh]
      rw [← List.append_assoc] at hb ⊢
      rw [← List.cons_append, ← List.append_assoc] at ha ⊢
      rcases exists_bracket hopen hb with ⟨inside, after, hd, rfl⟩
      have hhead := Head.ofText?_idle hidle (span?_head hopen' ha)
      exact .bracketed hopen' hopen hd hd hhead (.inl rfl) Iff.rfl
    · have hopen : '[' ∉ l ++ r := by simp [hl, hr]
      have hopen' : '[' ∉ l ++ c :: r := by simp [hl, hc, hr]
      have hidle' : Idle l c (r ++ []) := (List.append_nil r).symm ▸ hidle
      exact .bare hopen' hopen (Head.ofText?_idle hidle' (Brackets.plain_of_span? hopen' ha))

/-! ## Cutting at bars -/

/-- A text with an idle delimiter is cut into the alternatives that it has without it, but that the
delimiter may stand in one of them or cut off one more. -/
theorem exists_looserList {a b : List Char} (h : Looser a b) {alts : List (List Char)}
    (hb : Brackets.alternatives? 0 b = some alts) :
    ∃ alts', Brackets.alternatives? 0 a = some alts' ∧ LooserList alts' alts := by
  rcases h with ⟨l, c, r, hidle, rfl, rfl⟩
  have hdepth := Brackets.isSome_alternatives?_iff.1 (Option.isSome_of_eq_some hb)
  rw [Brackets.depth?_append, Option.bind_eq_some_iff] at hdepth
  rcases hdepth with ⟨n, hn, -⟩
  rcases Brackets.exists_alternatives?_append hn with ⟨before, last, hlast, hl, hcut⟩
  rw [hcut, Option.map_eq_some_iff] at hb
  rcases hb with ⟨rest, hrest, rfl⟩
  rcases Brackets.span?_of_alternatives? hrest with ⟨x, xs, rfl, -, -, hr⟩
  have hinner : Idle last c r := by
    rcases hl with rfl | ⟨p, rfl⟩
    · exact hidle
    · exact hidle.of_append_cons (.inr rfl)
  rw [List.modifyHead_cons]
  by_cases hbar : c = '|' ∧ n = 0
  · -- Another bar stands right before this one, and the alternative between them is empty.
    rcases hbar with ⟨rfl, rfl⟩
    have hnil : last = [] := hinner.eq_nil_of_bar hlast
    refine ⟨before ++ [] :: x :: xs, ?_, ?_⟩
    · rw [hcut, Brackets.alternatives?_bar, hrest, hnil]
      rfl
    · rw [hnil, List.nil_append]
      exact .between before (x :: xs)
  · refine ⟨before ++ (last ++ c :: x) :: xs, ?_, .within before xs ⟨last, c, x, ?_, rfl, rfl⟩⟩
    · rw [hcut, Brackets.alternatives?_cons hbar,
        Brackets.step?_of_not_bracket hidle.not_bracket.1 hidle.not_bracket.2, Option.bind_some,
        hrest]
      rfl
    · cases xs with
      | nil =>
          rw [List.intercalate_singleton] at hr
          exact hr ▸ hinner
      | cons y ys =>
          rw [List.intercalate_cons_cons, List.append_assoc] at hr
          exact Idle.of_append_right (by decide) (hr ▸ hinner)

/-- An idle delimiter does not make an alternative significant. -/
theorem Looser.isSignificant_eq {a b : List Char} (h : Looser a b)
    (ha : Brackets.span? 0 a = some 0) : isSignificant a = isSignificant b := by
  rcases h with ⟨l, c, r, hidle, rfl, rfl⟩
  have hskip : ∀ d : Char, d = ':' ∨ d = ',' →
      isSignificant (l ++ d :: r) = isSignificant (l ++ r) := by
    intro d hd
    rcases hd with rfl | rfl <;> simp [isSignificant]
  cases hidle with
  | colon => exact hskip ':' (.inl rfl)
  | colonBeforeBracket => exact hskip ':' (.inl rfl)
  | comma => exact hskip ',' (.inr rfl)
  | bar h =>
      -- The bar does not cut the alternative, so that another one stands before it.
      rcases List.eq_nil_or_concat' l with rfl | ⟨p, d, rfl⟩
      · rw [List.nil_append, Brackets.span?_cons, if_pos ⟨rfl, rfl⟩] at ha
        cases ha
      · rw [h d List.getLast?_concat]
        simp [isSignificant]

/-- Significant alternatives correspond to each other with and without an idle delimiter. -/
theorem LooserList.forall₂_significant {as bs : List (List Char)} (h : LooserList as bs)
    (has : ∀ a ∈ as, Brackets.span? 0 a = some 0) (hbs : ∀ b ∈ bs, Brackets.span? 0 b = some 0) :
    List.Forall₂ SameOrLooser (as.filter isSignificant) (bs.filter isSignificant) := by
  have hrefl : ∀ cs, List.Forall₂ SameOrLooser cs cs :=
    fun cs => List.forall₂_same.2 fun _ _ => .inl rfl
  cases h with
  | @within before after a b h =>
      have ha := has a (by simp)
      have hb := hbs b (by simp)
      rw [List.filter_append, List.filter_append]
      refine List.rel_append (hrefl _) ?_
      rw [List.filter_cons, List.filter_cons, h.isSignificant_eq ha]
      split
      · exact .cons (.inr ⟨h, ha, hb⟩) (hrefl _)
      · exact hrefl _
  | between before after =>
      have hnil : ¬isSignificant [] = true := by simp [isSignificant]
      rw [List.filter_append, List.filter_append, List.filter_cons_of_neg hnil]
      exact hrefl _

/-- What a bracket holds is cut into significant alternatives that correspond to each other. -/
theorem exists_forall₂_significant {inside inside' : List Char}
    (h : inside = inside' ∨ Looser inside inside') (hd : Brackets.depth? 0 inside' = some 0) :
    ∃ as bs, Brackets.alternatives? 0 inside = some as ∧
      Brackets.alternatives? 0 inside' = some bs ∧
      List.Forall₂ SameOrLooser (as.filter isSignificant) (bs.filter isSignificant) := by
  rcases Option.isSome_iff_exists.1 (Brackets.isSome_alternatives?_iff.2 hd) with ⟨bs, hbs⟩
  rcases h with rfl | h
  · exact ⟨bs, bs, hbs, hbs, List.forall₂_same.2 fun _ _ => .inl rfl⟩
  · rcases exists_looserList h hbs with ⟨as, has, hlooser⟩
    exact ⟨as, bs, has, hbs, hlooser.forall₂_significant
      (Brackets.alternatives?_eq_some_iff.1 has).2.1
      (Brackets.alternatives?_eq_some_iff.1 hbs).2.1⟩

/-! ## Reading -/

/-- Brackets behind heads that say the same are read alike if their significant alternatives are,
one level further in. -/
theorem ofAlternative_bracketed_congr {limit room : Nat} {text text' inside inside' : List Char}
    {as bs : List (List Char)} (hopen : '[' ∉ text) (hopen' : '[' ∉ text')
    (hhead : Head.ofText? text = Head.ofText? text')
    (has : Brackets.alternatives? 0 inside = some as)
    (hbs : Brackets.alternatives? 0 inside' = some bs)
    (h : List.Forall₂ (fun a b => ∀ room', room = room' + 1 →
      (ofAlternative limit room' a).mapError GrammarError.unquoted =
        (ofAlternative limit room' b).mapError GrammarError.unquoted)
      (as.filter isSignificant) (bs.filter isSignificant)) :
    (ofAlternative limit room (text ++ '[' :: (inside ++ [']']))).mapError GrammarError.unquoted =
      (ofAlternative limit room (text' ++ '[' :: (inside' ++ [']']))).mapError
        GrammarError.unquoted := by
  rw [ofAlternative_bracketed hopen has, ofAlternative_bracketed hopen' hbs, hhead]
  cases Head.ofText? text' with
  | none => rfl
  | some head =>
      dsimp only
      split
      · rfl
      · match room, as.filter isSignificant, bs.filter isSignificant, h with
        | _, [], [], _ => rfl
        | 0, [_], [_], _ => rfl
        | room + 1, [a], [b], .cons hab _ =>
            dsimp only
            rw [Outcome.mapError_map, Outcome.mapError_map, hab room rfl]
        | _, _ :: _ :: _, _ :: _ :: _, _ => rfl

/-- An alternative is read alike with and without an idle delimiter. -/
theorem Looser.ofAlternative_eq {limit room : Nat} {a b : List Char} (h : Looser a b)
    (ha : Brackets.span? 0 a = some 0) (hb : Brackets.span? 0 b = some 0) :
    (ofAlternative limit room a).mapError GrammarError.unquoted =
      (ofAlternative limit room b).mapError GrammarError.unquoted := by
  induction room using Nat.strongRecOn generalizing a b with
  | ind room ih =>
      cases h.alike ha hb with
      | bare hopen hopen' hhead =>
          rw [ofAlternative_of_not_mem hopen, ofAlternative_of_not_mem hopen', hhead]
          cases Head.ofText? b <;> rfl
      | @bracketed text text' inside inside' after after' hopen hopen' hd hd' hhead hinside
          hafter =>
          cases after' with
          | cons d after' =>
              have hne : after ≠ [] := fun he => by simp [he] at hafter
              rw [ofAlternative_trailing hopen hd hne,
                ofAlternative_trailing hopen' hd' (List.cons_ne_nil d after')]
              rfl
          | nil =>
              rcases exists_forall₂_significant hinside hd' with ⟨as, bs, has, hbs, hsig⟩
              rw [hafter.2 rfl]
              refine ofAlternative_bracketed_congr hopen hopen' hhead has hbs
                (hsig.imp fun x y hxy room' hroom => ?_)
              rcases hxy with rfl | ⟨hxy, hx, hy⟩
              · rfl
              · exact ih room' (hroom ▸ Nat.lt_succ_self room') hxy hx hy

end Path

end TreePaths
