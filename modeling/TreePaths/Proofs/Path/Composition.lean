import TreePaths.Proofs.Path.Below

/-!
# A path below some keys

A path that descends by some keys and goes on from there does what the rest of it does on its own to
the tree which stands there: reading reads that tree, and what is written into it or removed from it
is put back in its place (`operations_below_keys`).

A removal needs such a tree to have anything to do. A write creates a missing one, and what it
creates is the same as if the rest of the path had been written into null. The one exception is a
path that goes on at the elements of a sequence: it creates an empty sequence, but leaves null as it
is.
-/

namespace TreePaths.Path

variable {ks : List String} {t c : Tree}

theorem get_under (ks : List String) (q : Path) (t : Tree) :
    (under ks q).get t = ((t.at? ks).map q.get).getD .null := by
  induction ks generalizing t with
  | nil => rfl
  | cons k ks ih =>
      rw [under_cons, get, Tree.at?_cons]
      cases t.child? k with
      | none => rfl
      | some c => exact ih c

theorem get_null (q : Path) : q.get .null = .null := by
  cases q <;> rfl

theorem removes_under (ks : List String) (q : Path) (t : Tree) :
    (under ks q).removes t = ((t.at? ks).map q.removes).getD false := by
  induction ks generalizing t with
  | nil => rfl
  | cons k ks ih =>
      rw [under_cons, removes, Tree.at?_cons]
      cases t.child? k with
      | none => rfl
      | some c => exact ih c

theorem erase_under (h : t.at? ks = some c) (q : Path) :
    (under ks q).erase t = t.putAt ks (q.erase c) := by
  induction ks generalizing t with
  | nil =>
      obtain rfl := Option.some.inj h
      rfl
  | cons k ks ih =>
      obtain ⟨es, d, rfl, hd, hc⟩ := Tree.exists_mapping_of_at? h
      rw [under_cons, erase, Tree.putAt_cons, Tree.entries_mapping, Entries.modify_eq_insert hd,
        ih hc, Entries.update, hd, Option.getD_some]

/-! ## Paths that end at a key -/

theorem get_ofKeys? {p : Path} (hp : ofKeys? ks = some p) (t : Tree) :
    p.get t = (t.at? ks).getD .null := by
  obtain ⟨init, last, rfl, rfl⟩ := ofKeys?_eq_some hp
  rw [get_under, Tree.at?_append_singleton]
  cases t.at? init <;> rfl

theorem removes_ofKeys? {p : Path} (hp : ofKeys? ks = some p) (t : Tree) :
    p.removes t = (t.at? ks).isSome := by
  obtain ⟨init, last, rfl, rfl⟩ := ofKeys?_eq_some hp
  rw [removes_under, Tree.at?_append_singleton]
  cases t.at? init <;> rfl

theorem placeholder_under_key (ks : List String) (k : String) :
    (under ks (key k)).placeholder = .empty := by
  cases ks <;> rfl

/-- Setting along keys puts the value in the place that they lead to. -/
theorem set_ofKeys? {p : Path} (hp : ofKeys? ks = some p) (t v : Tree) :
    p.set t v = t.putAt ks v := by
  obtain ⟨init, last, rfl, rfl⟩ := ofKeys?_eq_some hp
  unfold set
  clear hp
  induction init generalizing t with
  | nil => rfl
  | cons k ks ih =>
      rw [under_cons, write, placeholder_under_key, List.cons_append, Tree.putAt_cons]
      exact congrArg Tree.mapping (congrArg (Entries.update k .empty · t.entries) (funext ih))

/-! ## Composition -/

/-- What is written to a missing container is written to null, unless it is written to elements. -/
theorem write_placeholder {q : Path} (h : ∀ inner, q ≠ each inner) (mode : Write) (v : Tree) :
    q.write mode v q.placeholder = q.write mode v .null := by
  cases q with
  | each inner => exact absurd rfl (h inner)
  | _ => rfl

theorem write_under_eq_set {p : Path} (hp : ofKeys? ks = some p) {q : Path}
    (hseq : NoSequenceAlong ks.dropLast t) (h : (t.at? ks).isSome ∨ ∀ inner, q ≠ each inner)
    (mode : Write) (v : Tree) :
    (under ks q).write mode v t = p.set t (q.write mode v (p.get t)) := by
  rw [write_under fun _ => hseq, set_ofKeys? hp, get_ofKeys? hp]
  cases hc : t.at? ks with
  | some c => rfl
  | none =>
      rw [hc] at h
      have hq : ∀ inner, q ≠ each inner := h.resolve_left (by simp)
      rw [Option.getD_none, Option.getD_none, write_placeholder hq]

theorem remove_under_eq_set {p : Path} (hp : ofKeys? ks = some p) (h : (t.at? ks).isSome)
    (q : Path) :
    (under ks q).remove t = ((q.remove (p.get t)).1, p.set t (q.remove (p.get t)).2) := by
  obtain ⟨c, hc⟩ := Option.isSome_iff_exists.1 h
  rw [remove, remove, removes_under, erase_under hc, set_ofKeys? hp, get_ofKeys? hp, hc]
  rfl

/-- A path that goes on below some keys does there what the rest of it does on its own. -/
theorem operations_below_keys {p : Path} (hp : ofKeys? ks = some p) (q : Path) (t : Tree) :
    (under ks q).get t = q.get (p.get t) ∧
      (NoSequenceAlong ks.dropLast t → ((t.at? ks).isSome ∨ ∀ inner, q ≠ each inner) → ∀ v,
        (under ks q).set t v = p.set t (q.set (p.get t) v) ∧
          (under ks q).add t v = p.set t (q.add (p.get t) v)) ∧
      ((t.at? ks).isSome →
        (under ks q).remove t = ((q.remove (p.get t)).1, p.set t (q.remove (p.get t)).2)) := by
  refine ⟨?_, fun hseq h v => ?_, fun h => remove_under_eq_set hp h q⟩
  · rw [get_under, get_ofKeys? hp]
    cases t.at? ks with
    | none => exact q.get_null.symm
    | some c => rfl
  · exact ⟨write_under_eq_set hp hseq h .set v, write_under_eq_set hp hseq h .add v⟩

theorem operations_below_keys_elements :
    ofKeys? ["a", "b"] = some (down "a" (key "b")) ∧
      NoSequenceAlong ["a"] (.mapping [("a", .mapping [("c", .null),
        ("b", .sequence [.mapping [("x", .sequence [])], .ofInt 1])])]) ∧
      ((Tree.mapping [("a", .mapping [("c", .null),
        ("b", .sequence [.mapping [("x", .sequence [])], .ofInt 1])])]).at? ["a", "b"]).isSome ∧
      (under ["a", "b"] (each (keys ["x", "y"]))).get (.mapping [("a", .mapping [("c", .null),
          ("b", .sequence [.mapping [("x", .sequence [])], .ofInt 1])])]) =
        .sequence [.mapping [("x", .sequence [])], .null] ∧
      (under ["a", "b"] (each (keys ["x", "y"]))).add (.mapping [("a", .mapping [("c", .null),
          ("b", .sequence [.mapping [("x", .sequence [])], .ofInt 1])])]) (.ofBool true) =
        .mapping [("a", .mapping [("c", .null), ("b", .sequence [
          .mapping [("x", .sequence [.ofBool true]), ("y", .ofBool true)],
          .mapping [("x", .ofBool true), ("y", .ofBool true)]])])] ∧
      (under ["a", "b"] (each (keys ["x", "y"]))).remove (.mapping [("a", .mapping [("c", .null),
          ("b", .sequence [.mapping [("x", .sequence [])], .ofInt 1])])]) =
        (true, .mapping [("a", .mapping [("c", .null), ("b", .sequence [.empty, .ofInt 1])])]) := by
  have hp : ofKeys? ["a", "b"] = some (down "a" (key "b")) := rfl
  have hseq : NoSequenceAlong ["a"] (.mapping [("a", .mapping [("c", .null),
      ("b", .sequence [.mapping [("x", .sequence [])], .ofInt 1])])]) := by
    simp [noSequenceAlong_cons, noSequenceAlong_nil, Entries.lookup_cons]
  obtain ⟨hget, hwrite, hremove⟩ := operations_below_keys hp (each (keys ["x", "y"]))
    (.mapping [("a", .mapping [("c", .null),
      ("b", .sequence [.mapping [("x", .sequence [])], .ofInt 1])])])
  obtain ⟨-, hadd⟩ := hwrite hseq (.inl rfl) (.ofBool true)
  exact ⟨hp, hseq, rfl, hget.trans rfl, hadd.trans rfl, (hremove rfl).trans rfl⟩

end TreePaths.Path
