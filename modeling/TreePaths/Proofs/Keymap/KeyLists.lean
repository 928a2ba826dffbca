import TreePaths.Proofs.Keymap.Removal
import TreePaths.Proofs.Path.Reordered

/-!
# Lists of keys as alternatives

A path that ends in a list of keys stands for several paths, one for each of the keys. Along the
path the tree is descended once, and the keys are visited in turn wherever that leads, in every
element of a sequence anew; along the several paths it is descended once for each key, and what was
done at the keys before is met on the way. Both come to the same for everything that changes a tree
(`list_eq_alternatives`), since each step down turns two changes below it, made one after the other,
into one (`foldl_within`).
-/

namespace TreePaths

/-- What is changed within something several times in a row may be changed there in one go. -/
theorem foldl_within {α β ι : Type} {F : (α → α) → β → β}
    (h : ∀ f g b, F g (F f b) = F (fun a => g (f a)) b) (f : ι → α → α) {is : List ι}
    (hne : is ≠ []) (b : β) :
    is.foldl (fun b i => F (f i) b) b = F (fun a => is.foldl (fun a i => f i a) a) b := by
  induction is generalizing b with
  | nil => exact absurd rfl hne
  | cons i is ih =>
      cases is with
      | nil => rfl
      | cons j is =>
          rw [List.foldl_cons, ih (by simp), h]
          rfl

namespace Path

/-- The keys that a path lists at its end, inside of all its brackets. -/
def listed? : Path → Option (List String)
  | keys ks => some ks
  | each inner => inner.listed?
  | down _ rest => rest.listed?
  | _ => none

/-- The path with a single key in place of the list of keys at its end. -/
def endingAt : Path → String → Path
  | keys _, n => key n
  | each inner, n => each (inner.endingAt n)
  | down k rest, n => down k (rest.endingAt n)
  | p, _ => p

theorem placeholder_endingAt (p : Path) (n : String) :
    (p.endingAt n).placeholder = p.placeholder := by
  cases p <;> rfl

theorem isFlat_endingAt (p : Path) (n : String) : (p.endingAt n).isFlat = p.isFlat := by
  induction p with
  | down k rest ih => exact ih
  | _ => rfl

variable {p : Path} {ns : List String}

/-- Writing to the keys of a list one after another, each time from the root, is writing to the
list. -/
theorem foldl_write_endingAt (h : p.listed? = some ns) (hne : ns ≠ []) (mode : Write) (v t : Tree) :
    ns.foldl (fun t n => (p.endingAt n).write mode v t) t = p.write mode v t := by
  induction p generalizing t with
  | key k => cases h
  | push => cases h
  | keys ks =>
      obtain rfl := Option.some.inj h
      exact foldl_within (F := fun f t => .mapping (f t.entries)) (fun _ _ _ => rfl)
        (fun n => mode.atKey v n) hne t
  | each inner ih =>
      have hinner := funext fun t => ih h t
      simp only [endingAt, write_each]
      rw [foldl_within Tree.mapItems_mapItems _ hne, hinner]
  | down k rest ih =>
      have hrest := funext fun t => ih h t
      have hcomp : ∀ (f g : Tree → Tree) (t : Tree),
          Tree.mapping (Entries.update k rest.placeholder g
            (Entries.update k rest.placeholder f t.entries)) =
          .mapping (Entries.update k rest.placeholder (fun t => g (f t)) t.entries) :=
        fun f g t => congrArg Tree.mapping (Entries.update_update k _ f g _)
      simp only [endingAt, write, placeholder_endingAt]
      rw [← hrest]
      exact foldl_within (F := fun f t =>
        Tree.mapping (Entries.update k rest.placeholder f t.entries)) hcomp _ hne t

/-- Removing the keys of a list one after another, each time from the root, is removing the list. -/
theorem foldl_erase_endingAt (h : p.listed? = some ns) (hne : ns ≠ []) (t : Tree) :
    ns.foldl (fun t n => (p.endingAt n).erase t) t = p.erase t := by
  induction p generalizing t with
  | key k => cases h
  | push => cases h
  | keys ks =>
      obtain rfl := Option.some.inj h
      simp only [endingAt, erase_key]
      rw [foldl_within Tree.mapEntries_mapEntries _ hne]
      cases t <;> rfl
  | each inner ih =>
      have hinner := funext fun t => ih h t
      simp only [endingAt, erase_each, isFlat_endingAt]
      cases inner.isFlat with
      | true =>
          simp only [if_true]
          rw [foldl_within Tree.mapItems_mapItems _ hne, hinner]
      | false => simp
  | down k rest ih =>
      have hrest := funext fun t => ih h t
      simp only [endingAt, erase_down]
      rw [foldl_within (F := fun f => Tree.mapEntries (Entries.modify k f)) (fun f g t => ?_) _ hne,
        hrest]
      rw [Tree.mapEntries_mapEntries]
      simp only [Entries.modify_modify]

end Path

namespace Keymap

/-- What is changed along a path that ends in a list of keys is changed in the same way by the
alternatives that end at one of the keys each. -/
theorem list_eq_alternatives {p : Path} {ns : List String} (h : p.listed? = some ns)
    (hne : ns ≠ []) (t v : Tree) :
    p.set t v = set ⟨ns.map p.endingAt⟩ t v ∧ p.add t v = add ⟨ns.map p.endingAt⟩ t v ∧
      p.remove t = remove ⟨ns.map p.endingAt⟩ t := by
  have hwrite : ∀ mode, p.write mode v t = write mode ⟨ns.map p.endingAt⟩ t v := by
    intro mode
    rw [write, List.foldl_map, Path.foldl_write_endingAt h hne]
  have herase : p.erase t = (remove ⟨ns.map p.endingAt⟩ t).2 := by
    rw [remove_eq, eraseAll, List.foldl_map, Path.foldl_erase_endingAt h hne]
  -- Nothing is removed just if the tree stays as it is, so the flags agree because the trees do.
  have hflag : p.removes t = (remove ⟨ns.map p.endingAt⟩ t).1 := by
    have hiff : p.removes t = false ↔ (remove ⟨ns.map p.endingAt⟩ t).1 = false := by
      rw [Path.removes_eq_false_iff, remove_fst_eq_false_iff, herase]
    cases hr : p.removes t with
    | false => exact (hiff.1 hr).symm
    | true =>
        by_contra hne
        rw [hiff.2 (by simpa using Ne.symm hne)] at hr
        cases hr
  exact ⟨hwrite .set, hwrite .add, Prod.ext hflag herase⟩

theorem list_eq_alternatives_repeated :
    (Path.down "s" (.each (.down "b" (.keys ["x", "y", "x"])))).listed? = some ["x", "y", "x"] ∧
      ["x", "y", "x"] ≠ [] ∧
      add ⟨[.down "s" (.each (.down "b" (.key "x"))), .down "s" (.each (.down "b" (.key "y"))),
          .down "s" (.each (.down "b" (.key "x")))]⟩
        (.mapping [("s", .sequence [.mapping [("b", .sequence [.null])], .ofInt 5,
          .mapping [("b", .mapping [("x", .sequence [.ofInt 2])])]])]) (.sequence []) =
        .mapping [("s", .sequence [
          .mapping [("b", .mapping [("0", .null), ("x", .sequence [.sequence []]),
            ("y", .sequence [])])],
          .mapping [("b", .mapping [("x", .sequence [.sequence []]), ("y", .sequence [])])],
          .mapping [("b", .mapping [("x", .sequence [.ofInt 2, .sequence [], .sequence []]),
            ("y", .sequence [])])]])] ∧
      remove ⟨[.down "s" (.each (.down "b" (.key "x"))), .down "s" (.each (.down "b" (.key "y"))),
          .down "s" (.each (.down "b" (.key "x")))]⟩
        (.mapping [("s", .sequence [.ofInt 5, .mapping [("b", .mapping [("y", .null)])]])]) =
        (true, .mapping [("s", .sequence [.ofInt 5, .mapping [("b", .empty)]])]) := by
  have h : (Path.down "s" (.each (.down "b" (.keys ["x", "y", "x"])))).listed? =
      some ["x", "y", "x"] := rfl
  have hne : ["x", "y", "x"] ≠ [] := by simp
  obtain ⟨-, hadd, -⟩ := list_eq_alternatives h hne
    (.mapping [("s", .sequence [.mapping [("b", .sequence [.null])], .ofInt 5,
      .mapping [("b", .mapping [("x", .sequence [.ofInt 2])])]])]) (.sequence [])
  obtain ⟨-, -, hremove⟩ := list_eq_alternatives h hne
    (.mapping [("s", .sequence [.ofInt 5, .mapping [("b", .mapping [("y", .null)])]])]) .null
  exact ⟨h, hne, hadd.symm.trans (by decide +kernel), hremove.symm.trans (by decide +kernel)⟩

end Keymap

end TreePaths
