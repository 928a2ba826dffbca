import TreePaths.Proofs.Path.Composition

/-!
# Adding one value after another

There are two ways to append. A path that ends behind the last element of a sequence appends always,
to an empty sequence where there was none. A path that ends at a key appends if the key holds a
sequence, and sets the value otherwise; so a sequence that is added may be appended to by what is
added next.

Once there is a sequence, one more value makes it one longer and nothing else changes, so a run of
any length puts at the place what was there followed by all that was added
(`foldl_append_at`, `appended_add`).
-/

namespace TreePaths.Path

variable {ks : List String} {p : Path} {t : Tree} {ts : List Tree}

/-- What appends one value to a sequence that stands below some keys appends many. -/
theorem foldl_append_at {f : Tree → Tree → Tree}
    (hf : ∀ t ts v, t.at? ks = some (.sequence ts) → f t v = t.putAt ks (.sequence (ts ++ [v])))
    (h : t.at? ks = some (.sequence ts)) (vs : List Tree) :
    vs.foldl f t = t.putAt ks (.sequence (ts ++ vs)) := by
  induction vs generalizing t ts with
  | nil => rw [List.foldl_nil, List.append_nil, Tree.putAt_eq_self h]
  | cons v vs ih =>
      rw [List.foldl_cons, hf t ts v h, ih (Tree.at?_putAt ks t _), Tree.putAt_putAt,
        List.append_assoc, List.singleton_append]

/-! ## Behind the last element -/

/-- A value that is appended makes a sequence of what stands there. -/
theorem add_push (h : t.at? ks = none → NoSequenceAlong ks.dropLast t) (v : Tree) :
    (under ks push).add t v = t.putAt ks (.sequence (((t.at? ks).getD .null).items ++ [v])) := by
  rw [add, write_under h]
  cases t.at? ks <;> rfl

theorem foldl_add_push (h : t.at? ks = none → NoSequenceAlong ks.dropLast t) {vs : List Tree}
    (hne : vs ≠ []) :
    vs.foldl (under ks push).add t =
      t.putAt ks (.sequence (((t.at? ks).getD .null).items ++ vs)) := by
  have happend : ∀ t ts v, t.at? ks = some (.sequence ts) →
      (under ks push).add t v = t.putAt ks (.sequence (ts ++ [v])) := by
    intro t ts v hts
    rw [add, write_under_of_at? hts]
    rfl
  cases vs with
  | nil => exact absurd rfl hne
  | cons v vs =>
      rw [List.foldl_cons, add_push h, foldl_append_at happend (Tree.at?_putAt ks t _),
        Tree.putAt_putAt, List.append_assoc, List.singleton_append]

/-! ## At a key -/

/-- Writing along keys sets what the written value makes of the one that is there. -/
theorem write_ofKeys? (hp : ofKeys? ks = some p) (h : NoSequenceAlong ks.dropLast t)
    (mode : Write) (v : Tree) : p.write mode v t = p.set t (mode.over v (t.at? ks)) := by
  obtain ⟨init, last, rfl, rfl⟩ := ofKeys?_eq_some hp
  rw [List.dropLast_concat] at h
  have hway : NoSequenceAlong init.dropLast t :=
    ⟨h.1, fun ns k hns => h.2 ns k (hns.trans init.dropLast_prefix)⟩
  have hfound : Entries.lookup last ((t.at? init).getD .empty).entries =
      t.at? (init ++ [last]) := by
    rw [Tree.at?_append_singleton]
    cases hc : t.at? init with
    | none => rfl
    | some c => exact Tree.lookup_entries (h.ne_sequence hc) last
  rw [set, write_under fun _ => hway, write_under fun _ => hway, ← hfound]
  rfl

/-- There is no sequence on the way to something that keys lead to. -/
theorem noSequenceAlong_of_at? (hp : ofKeys? ks = some p) {v : Tree} (h : t.at? ks = some v) :
    NoSequenceAlong ks.dropLast t := by
  obtain ⟨init, last, rfl, -⟩ := ofKeys?_eq_some hp
  rw [List.dropLast_concat]
  clear hp
  induction init generalizing t with
  | nil =>
      obtain ⟨es, c, rfl, -, -⟩ := Tree.exists_mapping_of_at? h
      exact noSequenceAlong_nil.2 (by simp)
  | cons k ks ih =>
      obtain ⟨es, c, rfl, hc, hv⟩ := Tree.exists_mapping_of_at? h
      refine noSequenceAlong_cons.2 ⟨by simp, fun d hd => ?_⟩
      obtain rfl := Option.some.inj (hc.symm.trans hd)
      exact ih hv

theorem add_of_at? (hp : ofKeys? ks = some p) (h : t.at? ks = some (.sequence ts)) (v : Tree) :
    p.add t v = t.putAt ks (.sequence (ts ++ [v])) := by
  rw [add, write_ofKeys? hp (noSequenceAlong_of_at? hp h), h, set_ofKeys? hp]
  rfl

theorem noSequenceAlong_foldl_add (hp : ofKeys? ks = some p) (h : NoSequenceAlong ks.dropLast t)
    (vs : List Tree) : NoSequenceAlong ks.dropLast (vs.foldl p.add t) := by
  induction vs generalizing t with
  | nil => exact h
  | cons v vs ih =>
      refine ih ?_
      rw [add, write_ofKeys? hp h, set_ofKeys? hp]
      exact noSequenceAlong_of_at? hp (Tree.at?_putAt ks t _)

theorem get_eq_sequence_iff (hp : ofKeys? ks = some p) :
    p.get t = .sequence ts ↔ t.at? ks = some (.sequence ts) := by
  rw [get_ofKeys? hp]
  cases t.at? ks <;> simp

theorem add_eq_set (hp : ofKeys? ks = some p) (h : NoSequenceAlong ks.dropLast t)
    (hget : ∀ ts, p.get t ≠ .sequence ts) (v : Tree) : p.add t v = p.set t v := by
  have hover : Write.add.over v (t.at? ks) = v := by
    cases hc : t.at? ks with
    | none => rfl
    | some c =>
        cases c with
        | sequence ts => exact absurd ((get_eq_sequence_iff hp).2 hc) (hget ts)
        | _ => rfl
  rw [add, write_ofKeys? hp h, hover]

/-- Of values that are added one after another all are appended: behind the last element always, and
at a key from when the key holds a sequence. Until then each one is set. -/
theorem appended_add (vs : List Tree) (t : Tree) :
    (vs ≠ [] → vs.foldl push.add t = .sequence (t.items ++ vs)) ∧
      ∀ ks p, ofKeys? ks = some p → NoSequenceAlong ks.dropLast t →
        (vs ≠ [] →
          vs.foldl (under ks push).add t = p.set t (.sequence ((p.get t).items ++ vs))) ∧
        (∀ ts, p.get t = .sequence ts → vs.foldl p.add t = p.set t (.sequence (ts ++ vs))) ∧
        ∀ v, (∀ ts, p.get (vs.foldl p.add t) ≠ .sequence ts) →
          p.add (vs.foldl p.add t) v = p.set (vs.foldl p.add t) v := by
  refine ⟨fun hne => ?_, fun ks p hp h => ⟨fun hne => ?_, fun ts hts => ?_, fun v hv => ?_⟩⟩
  · exact @foldl_add_push [] t (fun hnone => by cases hnone) vs hne
  · rw [foldl_add_push (fun _ => h) hne, set_ofKeys? hp, get_ofKeys? hp]
  · rw [get_eq_sequence_iff hp] at hts
    rw [foldl_append_at (fun _ _ v h => add_of_at? hp h v) hts, set_ofKeys? hp]
  · exact add_eq_set hp (noSequenceAlong_foldl_add hp h vs) hv v

theorem appended_add_two_keys :
    [Tree.ofBool true, .null] ≠ [] ∧
      ofKeys? ["a", "b"] = some (down "a" (key "b")) ∧
      ofKeys? ["a", "c"] = some (down "a" (key "c")) ∧
      NoSequenceAlong ["a"] (.mapping [("a", .mapping [("b", .sequence [.empty])])]) ∧
      (down "a" (key "b")).get (.mapping [("a", .mapping [("b", .sequence [.empty])])]) =
        .sequence [.empty] ∧
      (∀ ts, (down "a" (key "c")).get ([Tree.ofBool true, .null].foldl (down "a" (key "c")).add
        (.mapping [("a", .mapping [("b", .sequence [.empty])])])) ≠ .sequence ts) ∧
      [Tree.ofBool true, .null].foldl push.add
          (.mapping [("a", .mapping [("b", .sequence [.empty])])]) =
        .sequence [.ofBool true, .null] ∧
      [Tree.ofBool true, .null].foldl (under ["a", "c"] push).add
          (.mapping [("a", .mapping [("b", .sequence [.empty])])]) =
        .mapping [("a", .mapping [("b", .sequence [.empty]),
          ("c", .sequence [.ofBool true, .null])])] ∧
      [Tree.ofBool true, .null].foldl (down "a" (key "b")).add
          (.mapping [("a", .mapping [("b", .sequence [.empty])])]) =
        .mapping [("a", .mapping [("b", .sequence [.empty, .ofBool true, .null])])] ∧
      (down "a" (key "c")).add ([Tree.ofBool true, .null].foldl (down "a" (key "c")).add
          (.mapping [("a", .mapping [("b", .sequence [.empty])])])) (.sequence []) =
        .mapping [("a", .mapping [("b", .sequence [.empty]), ("c", .sequence [])])] := by
  have hne : [Tree.ofBool true, .null] ≠ [] := by simp
  have hb : ofKeys? ["a", "b"] = some (down "a" (key "b")) := rfl
  have hc : ofKeys? ["a", "c"] = some (down "a" (key "c")) := rfl
  have hseq : NoSequenceAlong ["a"] (.mapping [("a", .mapping [("b", .sequence [.empty])])]) := by
    simp [noSequenceAlong_cons, noSequenceAlong_nil, Entries.lookup_cons]
  have hget : (down "a" (key "b")).get (.mapping [("a", .mapping [("b", .sequence [.empty])])]) =
      .sequence [.empty] := rfl
  have hnull : ∀ ts, (down "a" (key "c")).get ([Tree.ofBool true, .null].foldl
      (down "a" (key "c")).add (.mapping [("a", .mapping [("b", .sequence [.empty])])])) ≠
      .sequence ts := by
    rintro ts ⟨⟩
  obtain ⟨hroot, hkeys⟩ := appended_add [.ofBool true, .null]
    (.mapping [("a", .mapping [("b", .sequence [.empty])])])
  obtain ⟨-, hsequence, -⟩ := hkeys _ _ hb hseq
  obtain ⟨hpush, -, hset⟩ := hkeys _ _ hc hseq
  exact ⟨hne, hb, hc, hseq, hget, hnull, hroot hne, (hpush hne).trans rfl,
    (hsequence _ hget).trans rfl, (hset _ hnull).trans rfl⟩

end TreePaths.Path
