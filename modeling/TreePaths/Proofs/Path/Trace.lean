import TreePaths.Proofs.Path.Grammar

/-!
# The texts that reading comes to

Reading one text comes to at most one other text, the significant part of its bracket, and to that
only if no rule is broken before it (`next?`). `trace` is the reader with a list of the texts that
it reads on the way. The result that comes with the list is the reader's own (`snd_trace`,
`snd_traceAll`).

`Visited` says which texts reading may come to, whatever the order of its checks. All texts that are
listed are visited (`Visited.of_mem_traceAll`), so what holds of the visited texts holds wherever
the reader gets, and a reading without an error gets to all of them (`Visited.mem_traceAll`).
-/

namespace TreePaths.Path

/-- The text that is read after a text, and the head that stands before its bracket. -/
def next? (cs : List Char) : Option (Head × List Char) :=
  match cut cs with
  | .ok (text, some inside) =>
    match Head.ofText? text, (Brackets.alternatives? 0 inside).map (·.filter isSignificant) with
    | some head, some [inner] => if head.names.length ≤ 1 then some (head, inner) else none
    | _, _ => none
  | _ => none

theorem next?_eq_some_iff {cs inner : List Char} {head : Head} :
    next? cs = some (head, inner) ↔
      ∃ text inside alts, cut cs = .ok (text, some inside) ∧ Head.ofText? text = some head ∧
        head.names.length ≤ 1 ∧ Brackets.alternatives? 0 inside = some alts ∧
        alts.filter isSignificant = [inner] := by
  constructor
  · intro h
    unfold next? at h
    split at h
    · rename_i text inside hcut
      split at h
      · rename_i head' inner' hhead hinner
        obtain ⟨alts, halts, hfilter⟩ := Option.map_eq_some_iff.1 hinner
        split at h
        · rename_i hone
          obtain ⟨rfl, rfl⟩ := Prod.mk.inj (Option.some.inj h)
          exact ⟨text, inside, alts, hcut, hhead, hone, halts, hfilter⟩
        · cases h
      · cases h
    · cases h
  · rintro ⟨text, inside, alts, hcut, hhead, hone, halts, hfilter⟩
    simp only [next?, hcut, hhead, halts, Option.map_some, hfilter, if_pos hone]

/-- Where another text is read after a text, the result is made of the head and what that text is
read as. -/
theorem ofAlternative_of_next? {cs inner : List Char} {head : Head}
    (h : next? cs = some (head, inner)) (limit room : Nat) :
    ofAlternative limit (room + 1) cs =
      (ofAlternative limit room inner).map fun p =>
        some (head.before ((p.map each).getD push)) := by
  obtain ⟨text, inside, alts, hcut, hhead, hone, halts, hfilter⟩ := next?_eq_some_iff.1 h
  rw [ofAlternative, hcut]
  simp only [hhead, if_neg (Nat.not_lt.2 hone), halts, hfilter]

/-- Where no other text is read after a text, the levels that are left do not matter. -/
theorem ofAlternative_of_next?_eq_none {cs : List Char} (h : next? cs = none)
    (limit room : Nat) : ofAlternative limit room cs = ofAlternative limit 0 cs := by
  fun_cases ofAlternative limit room cs with
  | case6 _ text head inside hhead hone alts halts hnone hcut =>
      rw [ofAlternative, hcut]
      simp only [hhead, if_neg hone, halts, hnone]
  | case8 text head inside hhead hone alts halts inner hinner room hcut =>
      have hsome : next? cs = some (head, inner) :=
        next?_eq_some_iff.2
          ⟨text, inside, alts, hcut, hhead, Nat.not_lt.1 hone, halts, hinner⟩
      rw [h] at hsome
      cases hsome
  -- What decides here comes before the levels are counted, or there is none left to start with.
  | _ => simp_all [ofAlternative]

/-- Reads an alternative, and lists the texts that are read on the way. -/
def trace (limit : Nat) : Nat → List Char →
    List (List Char) × Except GrammarError (Option Path)
  | 0, cs => ([cs], ofAlternative limit 0 cs)
  | room + 1, cs =>
    match next? cs with
    | none => ([cs], ofAlternative limit 0 cs)
    | some (head, inner) =>
      let run := trace limit room inner
      (cs :: run.1, run.2.map fun p => some (head.before ((p.map each).getD push)))

/-- Keeping the list of texts does not change the result. -/
theorem snd_trace (limit room : Nat) (cs : List Char) :
    (trace limit room cs).2 = ofAlternative limit room cs := by
  induction room generalizing cs with
  | zero => rfl
  | succ room ih =>
      rw [trace]
      cases hnext : next? cs with
      | none => exact (ofAlternative_of_next?_eq_none hnext limit (room + 1)).symm
      | some found =>
          obtain ⟨head, inner⟩ := found
          rw [ofAlternative_of_next? hnext, ← ih inner]

/-- Reads alternatives up to the first one at fault, and lists the texts read on the way. -/
def traceAll (limit : Nat) : List (List Char) →
    List (List Char) × Except GrammarError (List (Option Path))
  | [] => ([], .ok [])
  | cs :: rest =>
    match trace limit limit cs with
    | (texts, .error e) => (texts, .error e)
    | (texts, .ok p) =>
      let run := traceAll limit rest
      (texts ++ run.1, run.2.map (p :: ·))

theorem snd_traceAll (limit : Nat) (alts : List (List Char)) :
    (traceAll limit alts).2 = alts.mapM (ofAlternative limit limit) := by
  induction alts with
  | nil => rfl
  | cons cs rest ih =>
      rw [traceAll, Outcome.mapM_cons, ← snd_trace, ← ih]
      split
      · rename_i htrace
        rw [htrace]
        rfl
      · rename_i htrace
        rw [htrace]
        rfl

/-- The texts that reading the alternatives of a text may come to. An error ends the reading, and so
does the limit, so it may come to fewer, but never to others. -/
inductive Visited (text : List Char) : List Char → Prop
  | outer {alts : List (List Char)} {a : List Char}
      (halts : Brackets.alternatives? 0 text = some alts) (ha : a ∈ alts) : Visited text a
  /-- The one significant part of the interior of a bracket is read next. -/
  | inner {a head inside b : List Char} {alts : List (List Char)} (ha : Visited text a)
      (hcut : cut a = .ok (head, some inside))
      (halts : Brackets.alternatives? 0 inside = some alts)
      (hb : alts.filter isSignificant = [b]) : Visited text b

theorem Visited.next {text a b : List Char} {head : Head} (h : Visited text a)
    (hnext : next? a = some (head, b)) : Visited text b := by
  obtain ⟨_, inside, alts, hcut, -, -, halts, hb⟩ := next?_eq_some_iff.1 hnext
  exact h.inner hcut halts hb

theorem Visited.of_mem_trace {text a b : List Char} {limit room : Nat} (h : Visited text a)
    (hb : b ∈ (trace limit room a).1) : Visited text b := by
  induction room generalizing a with
  | zero =>
      rw [List.mem_singleton.1 hb]
      exact h
  | succ room ih =>
      rw [trace] at hb
      cases hnext : next? a with
      | none =>
          rw [hnext] at hb
          rw [List.mem_singleton.1 hb]
          exact h
      | some found =>
          obtain ⟨head, inner⟩ := found
          rw [hnext] at hb
          rcases List.mem_cons.1 hb with rfl | hb
          · exact h
          · exact ih (h.next hnext) hb

theorem Visited.of_mem_traceAll {text b : List Char} {limit : Nat} {alts : List (List Char)}
    (h : ∀ a ∈ alts, Visited text a) (hb : b ∈ (traceAll limit alts).1) : Visited text b := by
  induction alts with
  | nil => cases hb
  | cons cs rest ih =>
      rw [List.forall_mem_cons] at h
      have hfirst : b ∈ (trace limit limit cs).1 → Visited text b := h.1.of_mem_trace
      rw [traceAll] at hb
      split at hb
      · rename_i htrace
        exact hfirst (by rwa [htrace])
      · rename_i htrace
        rcases List.mem_append.1 hb with hb | hb
        · exact hfirst (by rwa [htrace])
        · exact ih h.2 hb

/-! ## Nothing is left out -/

theorem mem_trace_self (limit room : Nat) (cs : List Char) : cs ∈ (trace limit room cs).1 := by
  cases room with
  | zero => exact List.mem_cons_self
  | succ room =>
      rw [trace]
      split <;> exact List.mem_cons_self

/-- Where a text is read as something, no rule stands between it and its inner text. -/
theorem Reads.exists_next? {room : Nat} {cs head inside inner : List Char} {p : Option Path}
    {alts : List (List Char)} (h : Reads room cs p) (hcut : cut cs = .ok (head, some inside))
    (halts : Brackets.alternatives? 0 inside = some alts)
    (hinner : alts.filter isSignificant = [inner]) :
    ∃ r found, room = r + 1 ∧ next? cs = some (found, inner) := by
  obtain ⟨hhead, -, hcs⟩ := cut_eq_ok_some_iff.1 hcut
  cases h with
  | bare hopen => exact absurd (by simp [hcs]) hopen
  | push hcs' hopen _ _ halts' hnone =>
      obtain ⟨rfl, rfl⟩ := bracketed_inj hhead hopen (hcs.symm.trans hcs')
      obtain rfl := Option.some.inj (halts.symm.trans halts')
      rw [hnone] at hinner
      cases hinner
  | each hcs' hopen hfound hone =>
      obtain ⟨rfl, rfl⟩ := bracketed_inj hhead hopen (hcs.symm.trans hcs')
      exact ⟨_, _, rfl, next?_eq_some_iff.2 ⟨_, _, _, hcut, hfound, hone, halts, hinner⟩⟩

/-- Where a text is read as something, no inner text of a listed one is missing from the list. -/
theorem Reads.inner_mem_trace {limit room : Nat} {cs a b head inside : List Char}
    {p : Option Path} {alts : List (List Char)} (h : Reads room cs p)
    (ha : a ∈ (trace limit room cs).1) (hcut : cut a = .ok (head, some inside))
    (halts : Brackets.alternatives? 0 inside = some alts)
    (hb : alts.filter isSignificant = [b]) : b ∈ (trace limit room cs).1 := by
  induction room generalizing cs p with
  | zero =>
      obtain rfl := List.mem_singleton.1 ha
      obtain ⟨r, _, hr, -⟩ := h.exists_next? hcut halts hb
      cases hr
  | succ room ih =>
      rw [trace] at ha ⊢
      cases hnext : next? cs with
      | none =>
          rw [hnext] at ha
          obtain rfl := List.mem_singleton.1 ha
          obtain ⟨_, found, -, hsome⟩ := h.exists_next? hcut halts hb
          rw [hnext] at hsome
          cases hsome
      | some found =>
          obtain ⟨first, inner⟩ := found
          rw [hnext] at ha
          have hread : ofAlternative limit (room + 1) cs = .ok p := h.ofAlternative_eq
          rcases List.mem_cons.1 ha with rfl | ha
          · obtain ⟨_, _, -, hsome⟩ := h.exists_next? hcut halts hb
            obtain ⟨-, rfl⟩ := Prod.mk.inj (Option.some.inj (hnext.symm.trans hsome))
            exact List.mem_cons_of_mem _ (mem_trace_self limit room inner)
          · rw [ofAlternative_of_next? hnext, Outcome.map_eq_ok_iff] at hread
            obtain ⟨q, hq, -⟩ := hread
            exact List.mem_cons_of_mem _ (ih (reads_of_ofAlternative hq) ha)

/-- Where no alternative is at fault, the texts of all of them are listed. -/
theorem fst_traceAll {limit : Nat} {alts : List (List Char)} {found : List (Option Path)}
    (h : List.Forall₂ (Reads limit) alts found) :
    (traceAll limit alts).1 = alts.flatMap fun a => (trace limit limit a).1 := by
  induction h with
  | nil => rfl
  | @cons cs p rest found hp _ ih =>
      have htrace : trace limit limit cs = ((trace limit limit cs).1, .ok p) :=
        Prod.ext rfl ((snd_trace limit limit cs).trans hp.ofAlternative_eq)
      rw [traceAll, htrace, List.flatMap_cons, ← ih]

/-- Where no alternative is at fault, reading comes to all the visited texts. -/
theorem Visited.mem_traceAll {text a : List Char} {limit : Nat} {alts : List (List Char)}
    {found : List (Option Path)} (halts : Brackets.alternatives? 0 text = some alts)
    (h : List.Forall₂ (Reads limit) alts found) (ha : Visited text a) :
    a ∈ (traceAll limit alts).1 := by
  rw [fst_traceAll h, List.mem_flatMap]
  induction ha with
  | @outer _ a houter ha =>
      obtain rfl := Option.some.inj (halts.symm.trans houter)
      exact ⟨a, ha, mem_trace_self limit limit a⟩
  | inner _ hcut hinside hb ih =>
      obtain ⟨cs, hcs, hmem⟩ := ih
      obtain ⟨p, -, hp⟩ := Outcome.exists_of_mem_left h hcs
      exact ⟨cs, hcs, hp.inner_mem_trace hmem hcut hinside hb⟩

end TreePaths.Path
