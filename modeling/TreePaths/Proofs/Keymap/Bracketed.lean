import TreePaths.Proofs.Keymap.Parse
import TreePaths.Proofs.Path.Significant

/-!
# Brackets around a text

A text in brackets behind a key is read if at most one of its alternatives is significant and that
one is read one level further out. A text that is read alone has as many significant alternatives as
paths, so that its keymap decides what it is in brackets (`parse_bracketed`).

The text alone is read under a stricter condition, as it also has to be possible to read the
alternatives that name nothing (`parse_interior`).
-/

namespace TreePaths

namespace Path

/-- A single name is a head, and leads to what is below the key. -/
theorem exists_head_of_isName {k : String} (hk : IsName k) :
    ∃ head, Head.ofText? k.toList = some head ∧ head.names.length ≤ 1 ∧
      ∀ p, head.before p = down k p := by
  have hall : ∀ l ∈ [k], IsName l := List.forall_mem_singleton.2 hk
  have hcolon : ':' ∈ delimiters := by simp [delimiters]
  have hparts : Text.parts ':' k.toList = [k].map String.toList := by
    simpa [List.intercalate_singleton] using parts_names hcolon hall
  rcases Head.exists_of_parts hall hparts with ⟨head, hhead, hone, hnames⟩
  refine ⟨head, hhead, hone, fun p => ?_⟩
  rw [Head.before, hnames, under_cons, under_nil]

/-- What stands in brackets behind a key is read if it has at most one significant alternative and
that is read one level further out. -/
theorem reads_bracketed_iff {k : String} (hk : IsName k) {room : Nat} {inside : List Char}
    {p : Option Path} :
    Reads (room + 1) (k.toList ++ '[' :: (inside ++ [']'])) p ↔
      ∃ alts found, Brackets.alternatives? 0 inside = some alts ∧
        List.Forall₂ (Reads room) (alts.filter isSignificant) found ∧ found.length ≤ 1 ∧
        p = some (down k (((found.filterMap id).head?.map each).getD push)) := by
  obtain ⟨head, hhead, hone, hbefore⟩ := exists_head_of_isName hk
  have hopen : '[' ∉ k.toList := hk.not_mem (by simp [delimiters])
  constructor
  · intro h
    cases h with
    | bare hno => exact absurd (by simp) hno
    | push hcs ht hh _ halts hnone =>
        obtain ⟨rfl, rfl⟩ := bracketed_inj hopen ht hcs
        obtain rfl := Option.some.inj (hhead.symm.trans hh)
        exact ⟨_, [], halts, hnone ▸ .nil, by simp, congrArg some (hbefore push)⟩
    | @each _ _ _ _ _ _ _ q hcs ht hh _ halts hinner hq =>
        obtain ⟨rfl, rfl⟩ := bracketed_inj hopen ht hcs
        obtain rfl := Option.some.inj (hhead.symm.trans hh)
        refine ⟨_, [q], halts, hinner ▸ .cons hq .nil, by simp, ?_⟩
        rw [hbefore]
        cases q <;> rfl
  · rintro ⟨alts, found, halts, hfound, hlength, rfl⟩
    rw [← hbefore]
    cases found with
    | nil => exact .push rfl hopen hhead hone halts (List.forall₂_nil_right_iff.1 hfound)
    | cons q found =>
        obtain rfl : found = [] := by simpa using hlength
        obtain ⟨inner, _, hq, hnil, hinner⟩ := List.forall₂_cons_right_iff.1 hfound
        obtain rfl := List.forall₂_nil_right_iff.1 hnil
        have h := Reads.each rfl hopen hhead hone halts hinner hq
        cases q <;> exact h

end Path

namespace Keymap

/-- Only the significant alternatives of a text contribute to its keymap, but the others have to be
readable as well. -/
theorem parse_eq_ok_iff_significant {text : String} {o : PathOptions} {l : Keymap} :
    parse text o = .ok l ↔
      ∃ alts, Brackets.alternatives? 0 text.toList = some alts ∧
        (∀ a ∈ alts, Path.isSignificant a = false → (Path.segments ':' a).length ≤ 1) ∧
        ∃ found, List.Forall₂ (Path.Reads o.maxDepth) (alts.filter Path.isSignificant) found ∧
          found.filterMap id = l.paths := by
  simp only [parse_eq_ok_iff, ← Path.exists_forall₂_reads_iff]
  constructor
  · rintro ⟨alts, found, halts, hfound, rfl⟩
    exact ⟨alts, halts, found, hfound, rfl⟩
  · rintro ⟨alts, halts, found, hfound, hpaths⟩
    exact ⟨alts, found, halts, hfound, congrArg Keymap.mk hpaths.symm⟩

/-- The keymap of a text lists what its significant alternatives are read as. -/
theorem forall₂_reads_of_parse {text : String} {o : PathOptions} {l : Keymap}
    (h : parse text o = .ok l) :
    ∃ alts, Brackets.alternatives? 0 text.toList = some alts ∧
      List.Forall₂ (fun a p => Path.Reads o.maxDepth a (some p))
        (alts.filter Path.isSignificant) l.paths := by
  rcases parse_eq_ok_iff_significant.1 h with ⟨alts, halts, -, found, hfound, hpaths⟩
  have hspan : ∀ a ∈ alts.filter Path.isSignificant,
      Brackets.span? 0 a = some 0 ∧ Path.isSignificant a = true := fun a ha =>
    have hmem := List.mem_filter.1 ha
    ⟨(Brackets.alternatives?_eq_some_iff.1 halts).2.1 a hmem.1, hmem.2⟩
  exact ⟨alts, halts, hpaths ▸ Path.forall₂_reads_some hfound hspan⟩

/-- A balanced text in brackets behind a key is one alternative. -/
theorem alternatives?_bracketed {k x : String} (hk : Path.IsName k)
    (hx : Brackets.Balanced x.toList) :
    Brackets.alternatives? 0 (k ++ "[" ++ x ++ "]").toList =
      some [k.toList ++ '[' :: (x.toList ++ [']'])] := by
  have htext : (k ++ "[" ++ x ++ "]").toList = k.toList ++ '[' :: (x.toList ++ [']']) := by simp
  have hspan : Brackets.span? 0 (k.toList ++ '[' :: (x.toList ++ [']'])) = some 0 := by
    rw [Brackets.span?_append, Brackets.span?_of_plain hk.not_bracket, Option.bind_some,
      Brackets.span?_bracketed (Brackets.balanced_iff.1 hx)]
  rw [htext, Brackets.alternatives?_of_span? hspan]

/-- A text that is read alone is read in brackets behind a key as its path or as the place to append
to, and as an error if it has several paths. -/
theorem parse_bracketed {k : String} (hk : Path.IsName k) {x : String} {d : Nat} {l : Keymap}
    (h : parse x ⟨d⟩ = .ok l) :
    parse (k ++ "[" ++ x ++ "]") ⟨d + 1⟩ =
      match l.paths with
      | [] => .ok ⟨[.down k .push]⟩
      | [p] => .ok ⟨[.down k (.each p)]⟩
      | _ => .error (.alternativesInside (k ++ "[" ++ x ++ "]")) := by
  rcases forall₂_reads_of_parse h with ⟨alts, halts, hpaths⟩
  have hx := (Brackets.alternatives?_eq_some_outerParts_iff.1 halts).1
  rcases Path.exists_head_of_isName hk with ⟨head, hhead, hone, hbefore⟩
  have hopen : '[' ∉ k.toList := hk.not_mem (by simp [Path.delimiters])
  have htext : String.ofList (k.toList ++ '[' :: (x.toList ++ [']'])) = k ++ "[" ++ x ++ "]" := by
    apply String.toList_injective
    simp
  rw [parse_eq_of_alternatives? (alternatives?_bracketed hk hx), List.mapM_cons, List.mapM_nil,
    Path.ofAlternative_bracketed hopen halts, hhead, htext]
  simp only [if_neg (Nat.not_lt.2 hone), hbefore]
  -- As many alternatives are significant as there are paths.
  rcases hps : l.paths with _ | ⟨p, _ | ⟨q, ps⟩⟩
  · rw [hps] at hpaths
    rw [List.forall₂_nil_right_iff.1 hpaths]
    rfl
  · rw [hps] at hpaths
    rcases List.forall₂_cons_right_iff.1 hpaths with ⟨inner, _, hp, hnil, hinner⟩
    rw [hinner, List.forall₂_nil_right_iff.1 hnil]
    simp only [hp.ofAlternative_eq]
    rfl
  · rw [hps] at hpaths
    rcases List.forall₂_cons_right_iff.1 hpaths with ⟨a, _, -, hrest, ha⟩
    rcases List.forall₂_cons_right_iff.1 hrest with ⟨b, bs, -, -, rfl⟩
    rw [ha]
    rfl

theorem parse_bracketed_outcomes :
    Path.IsName "k" ∧ parse "|:," ⟨1⟩ = .ok ⟨[]⟩ ∧
      parse ("k" ++ "[" ++ "|:," ++ "]") ⟨1 + 1⟩ = .ok ⟨[.down "k" .push]⟩ ∧
      parse "|a[b,]|," ⟨1⟩ = .ok ⟨[.down "a" (.each (.key "b"))]⟩ ∧
      parse ("k" ++ "[" ++ "|a[b,]|," ++ "]") ⟨1 + 1⟩ =
        .ok ⟨[.down "k" (.each (.down "a" (.each (.key "b"))))]⟩ ∧
      parse "c,d||[|e]" ⟨1⟩ = .ok ⟨[.keys ["c", "d"], .each (.key "e")]⟩ ∧
      parse ("k" ++ "[" ++ "c,d||[|e]" ++ "]") ⟨1 + 1⟩ =
        .error (.alternativesInside "k[c,d||[|e]]") := by
  have hk : Path.IsName "k" := by simp [Path.IsName, Path.delimiters]
  have hread : parse "|:," ⟨1⟩ = .ok ⟨[]⟩ ∧
      parse "|a[b,]|," ⟨1⟩ = .ok ⟨[.down "a" (.each (.key "b"))]⟩ ∧
      parse "c,d||[|e]" ⟨1⟩ = .ok ⟨[.keys ["c", "d"], .each (.key "e")]⟩ := by
    simp only [parse, Function.id_def]
    cbv
  rcases hread with ⟨hnone, hone, htwo⟩
  exact ⟨hk, hnone, parse_bracketed hk hnone, hone, parse_bracketed hk hone, htwo,
    parse_bracketed hk htwo⟩

/-- A balanced text in brackets behind a key is read as one path or as none. -/
theorem parse_bracketed_iff {k : String} (hk : Path.IsName k) {x : String}
    (hx : Brackets.Balanced x.toList) {o : PathOptions} {l : Keymap} :
    parse (k ++ "[" ++ x ++ "]") o = .ok l ↔
      ∃ p, Path.Reads o.maxDepth (k.toList ++ '[' :: (x.toList ++ [']'])) p ∧
        l = ⟨p.toList⟩ := by
  rw [parse_eq_ok_iff, alternatives?_bracketed hk hx]
  constructor
  · rintro ⟨_, found, ⟨⟩, hfound, rfl⟩
    obtain ⟨p, _, hp, hnil, rfl⟩ := List.forall₂_cons_left_iff.1 hfound
    obtain rfl := List.forall₂_nil_left_iff.1 hnil
    exact ⟨p, hp, by cases p <;> rfl⟩
  · rintro ⟨p, hp, rfl⟩
    exact ⟨_, [p], rfl, .cons hp .nil, by cases p <;> rfl⟩

/-- A text that is read in brackets behind a key is read alone if and only if the commas of each
alternative that names nothing stand in one segment. It then has no paths if and only if the path
with the brackets appends to what is at the key. -/
theorem parse_interior {k : String} (hk : Path.IsName k) {x : String}
    (hx : Brackets.Balanced x.toList) {d : Nat} {l : Keymap}
    (h : parse (k ++ "[" ++ x ++ "]") ⟨d + 1⟩ = .ok l) :
    ((∃ l', parse x ⟨d⟩ = .ok l') ↔ ∀ a ∈ Brackets.outerParts x.toList,
      Path.isSignificant a = false → (Path.segments ':' a).length ≤ 1) ∧
    ∀ l', parse x ⟨d⟩ = .ok l' → (l = ⟨[.down k .push]⟩ ↔ l' = ⟨[]⟩) := by
  obtain ⟨p, hp, rfl⟩ := (parse_bracketed_iff hk hx).1 h
  obtain ⟨alts, found, halts, hfound, -, rfl⟩ := (Path.reads_bracketed_iff hk).1 hp
  obtain ⟨-, hparts⟩ := Brackets.alternatives?_eq_some_outerParts_iff.1 halts
  have hread : (∀ a ∈ alts, Path.isSignificant a = false → (Path.segments ':' a).length ≤ 1) →
      parse x ⟨d⟩ = .ok ⟨found.filterMap id⟩ := fun hblank =>
    parse_eq_ok_iff_significant.2 ⟨alts, halts, hblank, found, hfound, rfl⟩
  have hblank : ∀ {l'}, parse x ⟨d⟩ = .ok l' →
      ∀ a ∈ alts, Path.isSignificant a = false → (Path.segments ':' a).length ≤ 1 := by
    intro l' hl'
    obtain ⟨alts', halts', hblank, -⟩ := parse_eq_ok_iff_significant.1 hl'
    obtain rfl := Option.some.inj (halts.symm.trans halts')
    exact hblank
  rw [hparts]
  refine ⟨⟨fun ⟨l', hl'⟩ => hblank hl', fun hall => ⟨_, hread hall⟩⟩, fun l' hl' => ?_⟩
  obtain rfl := Except.ok.inj ((hread (hblank hl')).symm.trans hl')
  cases found.filterMap id <;> simp

theorem parse_interior_stray_delimiters :
    Path.IsName "k" ∧ Brackets.Balanced "|a[b,]|,:".toList ∧
      parse ("k" ++ "[" ++ "|a[b,]|,:" ++ "]") ⟨1 + 1⟩ =
        .ok ⟨[.down "k" (.each (.down "a" (.each (.key "b"))))]⟩ ∧
      (∃ l', parse "|a[b,]|,:" ⟨1⟩ = .ok l') ∧ parse "|a[b,]|,:" ⟨1⟩ ≠ .ok ⟨[]⟩ := by
  have hk : Path.IsName "k" := by simp [Path.IsName, Path.delimiters]
  have hx : Brackets.Balanced "|a[b,]|,:".toList := Brackets.balanced_iff.2 (by decide +kernel)
  have h : parse ("k" ++ "[" ++ "|a[b,]|,:" ++ "]") ⟨1 + 1⟩ =
      .ok ⟨[.down "k" (.each (.down "a" (.each (.key "b"))))]⟩ := by decide +kernel
  obtain ⟨hread, hpush⟩ := parse_interior hk hx h
  exact ⟨hk, hx, h, hread.2 (by decide +kernel),
    fun hl' => absurd ((hpush ⟨[]⟩ hl').2 rfl) (by simp)⟩

/-- Separated commas are dropped in brackets and are an error alone. -/
theorem parse_separated_commas :
    Path.IsName "k" ∧ Brackets.Balanced ",:,".toList ∧
      parse ("k" ++ "[" ++ ",:," ++ "]") ⟨0 + 1⟩ = .ok ⟨[.down "k" .push]⟩ ∧
      parse ",:," ⟨0⟩ = .error (.listBeforeEnd ",:,") :=
  ⟨by simp [Path.IsName, Path.delimiters], Brackets.balanced_iff.2 (by decide +kernel),
    by decide +kernel, by decide +kernel⟩

end Keymap

end TreePaths
