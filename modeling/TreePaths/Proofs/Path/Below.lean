import TreePaths.Proofs.Path.Frame

/-!
# What stands below some keys

Some keys, one after another, lead to a place in a tree. `Tree.at?` is what stands there and
`Tree.putAt` puts something else there. The two obey the laws that one expects: what is put is
found, the last of several trees put at a place counts, and putting what is there already changes
nothing.

A write along a path that descends by some keys puts there what the rest of the path makes of the
tree that was there, or of a new container if there was none (`write_under`). Where there was none,
sequences on the way down are left out, as a write turns them into mappings and finds other keys in
them.

So where nothing or only a leaf was, a container stands afterwards in which the path can go on, with
one exception: a leaf is not replaced where the path goes on at the elements of a sequence
(`goesOnIn_write_iff`).
-/

namespace TreePaths

/-- The tree that some keys lead to, one after another. -/
def Tree.at? : List String → Tree → Option Tree
  | [], t => some t
  | k :: ks, t => (t.child? k).bind (Tree.at? ks)

/-- The tree with another one in the place that some keys lead to. On the way down, what is no
mapping becomes one as it does in writing. -/
def Tree.putAt : List String → Tree → Tree → Tree
  | [], _, v => v
  | k :: ks, t, v => .mapping (Entries.update k .empty (fun c => c.putAt ks v) t.entries)

namespace Tree

@[simp] theorem at?_nil (t : Tree) : t.at? [] = some t := rfl

theorem at?_cons (k : String) (ks : List String) (t : Tree) :
    t.at? (k :: ks) = (t.child? k).bind (at? ks) := rfl

@[simp] theorem putAt_nil (t v : Tree) : t.putAt [] v = v := rfl

theorem putAt_cons (k : String) (ks : List String) (t v : Tree) :
    t.putAt (k :: ks) v =
      mapping (Entries.update k .empty (fun c => c.putAt ks v) t.entries) := rfl

theorem at?_append (ks ls : List String) (t : Tree) :
    t.at? (ks ++ ls) = (t.at? ks).bind (at? ls) := by
  induction ks generalizing t with
  | nil => rfl
  | cons k ks ih =>
      rw [List.cons_append, at?_cons, at?_cons, Option.bind_assoc]
      exact congrArg (t.child? k).bind (funext ih)

theorem at?_append_singleton (ks : List String) (k : String) (t : Tree) :
    t.at? (ks ++ [k]) = (t.at? ks).bind (child? k) := by
  rw [at?_append]
  exact congrArg (t.at? ks).bind (funext fun c => Option.bind_fun_some (c.child? k))

/-- What is found below a key stands in a mapping that has the key. -/
theorem exists_mapping_of_at? {k : String} {ks : List String} {t v : Tree}
    (h : t.at? (k :: ks) = some v) :
    ∃ es c, t = mapping es ∧ Entries.lookup k es = some c ∧ c.at? ks = some v := by
  rw [at?_cons, Option.bind_eq_some_iff] at h
  obtain ⟨c, hc, hv⟩ := h
  cases t with
  | mapping es => exact ⟨es, c, rfl, hc, hv⟩
  | _ => cases hc

theorem at?_putAt (ks : List String) (t v : Tree) : (t.putAt ks v).at? ks = some v := by
  induction ks generalizing t with
  | nil => rfl
  | cons k ks ih =>
      rw [putAt_cons, at?_cons, child?_mapping, Entries.lookup_update, if_pos rfl,
        Option.bind_some, ih]

/-- The last of two trees that are put at a place counts. -/
theorem putAt_putAt (ks : List String) (t v w : Tree) :
    (t.putAt ks v).putAt ks w = t.putAt ks w := by
  induction ks generalizing t with
  | nil => rfl
  | cons k ks ih =>
      have hbelow : (fun c : Tree => (c.putAt ks v).putAt ks w) = fun c => c.putAt ks w := funext ih
      rw [putAt_cons, putAt_cons, putAt_cons, entries_mapping, Entries.update_update, hbelow]

/-- Putting what is found at a place changes nothing. -/
theorem putAt_eq_self {ks : List String} {t v : Tree} (h : t.at? ks = some v) :
    t.putAt ks v = t := by
  induction ks generalizing t with
  | nil => exact (Option.some.inj h).symm
  | cons k ks ih =>
      obtain ⟨es, c, rfl, hc, hv⟩ := exists_mapping_of_at? h
      rw [putAt_cons, entries_mapping, Entries.update, hc, Option.getD_some, ih hv,
        Entries.insert_eq_self hc]

end Tree

namespace Path

theorem NoSequenceAlong.ne_sequence {ks : List String} {t c : Tree} (h : NoSequenceAlong ks t)
    (hc : t.at? ks = some c) (ts : List Tree) : c ≠ .sequence ts := by
  induction ks generalizing t with
  | nil =>
      obtain rfl := Option.some.inj hc
      exact h.1 ts
  | cons k ks ih =>
      obtain ⟨es, d, rfl, hd, hc⟩ := Tree.exists_mapping_of_at? hc
      exact ih ((noSequenceAlong_cons.1 h).2 d hd) hc

/-- A write below some keys puts there what the rest of the path makes of what is there. -/
theorem write_under {ks : List String} {t : Tree}
    (h : t.at? ks = none → NoSequenceAlong ks.dropLast t) (p : Path) (mode : Write) (v : Tree) :
    (under ks p).write mode v t =
      t.putAt ks (p.write mode v ((t.at? ks).getD p.placeholder)) := by
  induction ks generalizing t with
  | nil => rfl
  | cons k ks ih =>
      have hroot : ∀ ts, t ≠ .sequence ts := by
        rintro ts rfl
        exact (h rfl).1 ts rfl
      rw [under_cons, write, Tree.putAt_cons, Entries.update, Entries.update,
        Tree.lookup_entries hroot, Tree.at?_cons]
      cases ks with
      | nil => cases t.child? k <;> rfl
      | cons l ls =>
          rw [Tree.at?_cons, List.dropLast_cons_cons, noSequenceAlong_cons] at h
          cases hc : t.child? k with
          | none =>
              have hbelow := ih fun _ => noSequenceAlong_empty _
              exact congrArg (fun c => Tree.mapping (Entries.insert k c t.entries)) hbelow
          | some c =>
              rw [hc, Option.bind_some] at h
              have hbelow := ih fun hnone => (h hnone).2 c rfl
              exact congrArg (fun c => Tree.mapping (Entries.insert k c t.entries)) hbelow

theorem write_under_of_at? {ks : List String} {t c : Tree} (h : t.at? ks = some c) (p : Path)
    (mode : Write) (v : Tree) : (under ks p).write mode v t = t.putAt ks (p.write mode v c) := by
  have hfound : t.at? ks ≠ none := by simp [h]
  rw [write_under fun hnone => absurd hnone hfound, h, Option.getD_some]

theorem at?_write_under {ks : List String} {t : Tree} (h : NoSequenceAlong ks.dropLast t)
    (p : Path) (mode : Write) (v : Tree) :
    ((under ks p).write mode v t).at? ks =
      some (p.write mode v ((t.at? ks).getD p.placeholder)) := by
  rw [write_under fun _ => h, Tree.at?_putAt]

/-- A container in which a path goes on: a sequence for what is appended and for what is done at
every element, and a mapping for keys. -/
def GoesOnIn : Path → Tree → Prop
  | push, t | each _, t => ∃ ts, t = .sequence ts
  | _, t => ∃ es, t = .mapping es

theorem goesOnIn_write_placeholder (p : Path) (mode : Write) (v : Tree) :
    p.GoesOnIn (p.write mode v p.placeholder) := by
  cases p <;> exact ⟨_, rfl⟩

theorem goesOnIn_write_leaf_iff {t : Tree} (ht : t.isContainer = false) (p : Path) (mode : Write)
    (v : Tree) : p.GoesOnIn (p.write mode v t) ↔ ∀ inner, p ≠ each inner := by
  cases p with
  | each inner =>
      have hstays : (each inner).write mode v t = t := by
        cases t with
        | sequence ts => cases ht
        | _ => rfl
      rw [hstays]
      constructor
      · rintro ⟨ts, rfl⟩
        cases ht
      · exact fun h => absurd rfl (h inner)
  | _ => exact ⟨fun _ => by simp, fun _ => ⟨_, rfl⟩⟩

/-- Where nothing or a leaf was found, a write leaves a container in which the path goes on, unless
it was a leaf and the path goes on at every element. -/
theorem goesOnIn_write_iff {ks : List String} {t : Tree} (hseq : NoSequenceAlong ks.dropLast t)
    (hleaf : ∀ c, t.at? ks = some c → c.isContainer = false) (p : Path) (mode : Write) (v : Tree) :
    (∃ c, ((under ks p).write mode v t).at? ks = some c ∧ p.GoesOnIn c) ↔
      t.at? ks = none ∨ ∀ inner, p ≠ each inner := by
  rw [at?_write_under hseq]
  simp only [Option.some.injEq, exists_eq_left']
  cases hc : t.at? ks with
  | none => exact iff_of_true (goesOnIn_write_placeholder p mode v) (.inl rfl)
  | some c =>
      rw [Option.getD_some, goesOnIn_write_leaf_iff (hleaf c hc)]
      simp

theorem goesOnIn_write_iff_number :
    NoSequenceAlong ["a"] (.mapping [("a", .mapping [("b", .ofInt 5), ("c", .sequence [])])]) ∧
      (∀ c, (Tree.mapping [("a", .mapping [("b", .ofInt 5), ("c", .sequence [])])]).at?
        ["a", "b"] = some c → c.isContainer = false) ∧
      ∃ c, ((under ["a", "b"] (keys ["x", "y"])).add
          (.mapping [("a", .mapping [("b", .ofInt 5), ("c", .sequence [])])]) .null).at?
        ["a", "b"] = some c ∧ ∃ es, c = .mapping es := by
  have hseq : NoSequenceAlong ["a"]
      (.mapping [("a", .mapping [("b", .ofInt 5), ("c", .sequence [])])]) := by
    simp [noSequenceAlong_cons, noSequenceAlong_nil, Entries.lookup_cons]
  have hleaf : ∀ c, (Tree.mapping [("a", .mapping [("b", .ofInt 5),
      ("c", .sequence [])])]).at? ["a", "b"] = some c → c.isContainer = false := by
    rintro _ ⟨⟩
    rfl
  refine ⟨hseq, hleaf, ?_⟩
  exact (@goesOnIn_write_iff ["a", "b"] _ hseq hleaf (keys ["x", "y"]) .add .null).2
    (.inr (by simp))

/-- A number is left where a path goes on at every element, so nothing is written. -/
theorem set_each_keeps_number :
    NoSequenceAlong [] (.mapping [("a", .ofInt 5)]) ∧
      (Tree.mapping [("a", .ofInt 5)]).at? ["a"] = some (.ofInt 5) ∧
      (Tree.ofInt 5).isContainer = false ∧
      ((under ["a"] (each (key "b"))).set (.mapping [("a", .ofInt 5)]) .null).at? ["a"] =
        some (.ofInt 5) ∧
      ¬(each (key "b")).GoesOnIn (.ofInt 5) := by
  refine ⟨noSequenceAlong_nil.2 (by simp), rfl, rfl, rfl, ?_⟩
  rintro ⟨ts, h⟩
  cases h

end Path

end TreePaths
