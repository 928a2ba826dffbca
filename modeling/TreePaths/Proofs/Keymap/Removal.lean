import TreePaths.Keymap.Access
import TreePaths.Proofs.Path.Removal

/-!
# Removing through a keymap

The alternatives of a keymap are removed one after another, each from what the ones before it left.
As erasing commutes, their order does not matter, and it is enough to look at the first tree to know
whether anything is removed (`remove_eq`). The flag tells whether the tree has changed, and a change
only deletes entries of mappings (`remove_pruned`). What any of the alternatives would remove is
gone in the end, so a second removal does nothing.
-/

namespace TreePaths.Keymap

/-- The tree without the keys that some paths address. -/
def eraseAll (ps : List Path) (t : Tree) : Tree := ps.foldl (fun t p => p.erase t) t

theorem eraseAll_cons (p : Path) (ps : List Path) (t : Tree) :
    eraseAll (p :: ps) t = eraseAll ps (p.erase t) := rfl

theorem commute_eraseAll (p : Path) (ps : List Path) : Function.Commute p.erase (eraseAll ps) := by
  induction ps with
  | nil => exact Function.Commute.id_right
  | cons q ps ih => exact ih.comp_right (Path.commute_erase p q)

/-- None of the paths that have been removed has anything left to remove. -/
theorem removes_eraseAll {p : Path} {ps : List Path} (hp : p ∈ ps) (t : Tree) :
    p.removes (eraseAll ps t) = false := by
  induction ps generalizing t with
  | nil => exact absurd hp List.not_mem_nil
  | cons q ps ih =>
      rw [eraseAll_cons]
      rcases List.mem_cons.1 hp with rfl | hp
      · rw [← commute_eraseAll p ps t]
        exact p.removes_erase _
      · exact ih hp _

theorem eraseAll_of_removes_eq_false {ps : List Path} {t : Tree}
    (h : ∀ p ∈ ps, p.removes t = false) : eraseAll ps t = t := by
  induction ps with
  | nil => rfl
  | cons p ps ih =>
      rw [List.forall_mem_cons] at h
      rw [eraseAll_cons, Path.erase_of_removes_eq_false h.1, ih h.2]

theorem eraseAll_perm {ps qs : List Path} (h : ps.Perm qs) (t : Tree) :
    eraseAll ps t = eraseAll qs t :=
  h.foldl_eq' (fun p _ q _ t => q.commute_erase p t) t

/-- Something is removed if and only if one of the paths would remove something at once. -/
theorem remove_eq (k : Keymap) (t : Tree) :
    k.remove t = (k.paths.any fun p => p.removes t, eraseAll k.paths t) := by
  suffices h : ∀ (ps : List Path) (b : Bool) (t : Tree),
      ps.foldl (fun s p => (p.removes s.2 || s.1, p.erase s.2)) (b, t) =
        (b || ps.any fun p => p.removes t, eraseAll ps t) from h k.paths false t
  intro ps
  induction ps with
  | nil => intro b t; simp [eraseAll]
  | cons p ps ih =>
      intro b t
      rw [List.foldl_cons, ih, eraseAll_cons, List.any_cons]
      -- Until something has been removed, every path still meets the first tree.
      cases hp : p.removes t with
      | true => simp
      | false => simp [Path.erase_of_removes_eq_false hp]

/-- Removal tells whether it has changed the tree. -/
theorem remove_fst_eq_false_iff (k : Keymap) (t : Tree) :
    (k.remove t).1 = false ↔ (k.remove t).2 = t := by
  rw [remove_eq]
  constructor
  · intro h
    exact eraseAll_of_removes_eq_false (by simpa using h)
  · intro h
    have hnone : ∀ p ∈ k.paths, p.removes t = false := fun p hp => h ▸ removes_eraseAll hp t
    simpa using hnone

theorem pruned_eraseAll (ps : List Path) {s t : Tree} (h : s.Pruned t) :
    s.Pruned (eraseAll ps t) := by
  induction ps generalizing t with
  | nil => exact h
  | cons p ps ih => exact ih (p.pruned_erase h)

/-- Removal tells whether it has changed the tree, and all that it does is to delete entries of
mappings. -/
theorem remove_pruned (k : Keymap) (t : Tree) :
    ((k.remove t).1 = false ↔ (k.remove t).2 = t) ∧ t.Pruned (k.remove t).2 := by
  refine ⟨remove_fst_eq_false_iff k t, ?_⟩
  rw [remove_eq]
  exact pruned_eraseAll k.paths (.refl t)

/-- The alternatives of a keymap may be removed in any order. -/
theorem remove_perm {k l : Keymap} (h : k.paths.Perm l.paths) (t : Tree) :
    k.remove t = l.remove t := by
  rw [remove_eq, remove_eq, h.any_eq, eraseAll_perm h]

theorem remove_perm_overlapping :
    [Path.down "a" (.key "b"), .keys ["a", "x"], .down "s" (.each (.keys ["u", "v"])),
        .down "s" (.each (.key "u"))].Perm
      [.down "s" (.each (.key "u")), .keys ["a", "x"], .down "a" (.key "b"),
        .down "s" (.each (.keys ["u", "v"]))] ∧
    remove ⟨[.down "s" (.each (.key "u")), .keys ["a", "x"], .down "a" (.key "b"),
        .down "s" (.each (.keys ["u", "v"]))]⟩
      (.mapping [("c", .null), ("a", .mapping [("b", .null)]),
        ("s", .sequence [.mapping [("u", .null), ("w", .null)], .mapping [("v", .null)]])]) =
      (true, .mapping [("c", .null), ("s", .sequence [.mapping [("w", .null)], .empty])]) := by
  have hperm : [Path.down "a" (.key "b"), .keys ["a", "x"], .down "s" (.each (.keys ["u", "v"])),
      .down "s" (.each (.key "u"))].Perm
    [.down "s" (.each (.key "u")), .keys ["a", "x"], .down "a" (.key "b"),
      .down "s" (.each (.keys ["u", "v"]))] := by decide +kernel
  have hremove : remove ⟨[.down "a" (.key "b"), .keys ["a", "x"],
      .down "s" (.each (.keys ["u", "v"])), .down "s" (.each (.key "u"))]⟩
    (.mapping [("c", .null), ("a", .mapping [("b", .null)]),
      ("s", .sequence [.mapping [("u", .null), ("w", .null)], .mapping [("v", .null)]])]) =
    (true, .mapping [("c", .null), ("s", .sequence [.mapping [("w", .null)], .empty])]) := by
    decide +kernel
  rw [@remove_perm ⟨_⟩ ⟨_⟩ hperm] at hremove
  exact ⟨hperm, hremove⟩

/-- A second removal does nothing, and what has been removed is not found any more. -/
theorem remove_remove (k : Keymap) (t : Tree) :
    k.remove (k.remove t).2 = (false, (k.remove t).2) ∧
      ∀ p ∈ k.paths, p.nesting ≤ 1 → p.FindsNothing (p.get (k.remove t).2) := by
  have hnone : ∀ p ∈ k.paths, p.removes (eraseAll k.paths t) = false :=
    fun p hp => removes_eraseAll hp t
  have hany : (k.paths.any fun p => p.removes (eraseAll k.paths t)) = false :=
    List.any_eq_false.2 fun p hp => by simp [hnone p hp]
  simp only [remove_eq]
  rw [hany, eraseAll_of_removes_eq_false hnone]
  exact ⟨rfl, fun p hp hn => Path.findsNothing_get hn (hnone p hp)⟩

theorem remove_remove_nested :
    (Path.down "s" (.each (.keys ["u", "v"]))) ∈
        (Keymap.mk [.key "a", .down "s" (.each (.keys ["u", "v"]))]).paths ∧
      (Path.down "s" (.each (.keys ["u", "v"]))).nesting ≤ 1 ∧
      remove ⟨[.key "a", .down "s" (.each (.keys ["u", "v"]))]⟩
        (.mapping [("s", .sequence [.mapping [("w", .null)], .ofInt 1])]) =
          (false, .mapping [("s", .sequence [.mapping [("w", .null)], .ofInt 1])]) ∧
      (Path.down "s" (.each (.keys ["u", "v"]))).FindsNothing (.sequence [.empty, .null]) := by
  have hp : (Path.down "s" (.each (.keys ["u", "v"]))) ∈
      (Keymap.mk [.key "a", .down "s" (.each (.keys ["u", "v"]))]).paths := by decide +kernel
  have hn : (Path.down "s" (.each (.keys ["u", "v"]))).nesting ≤ 1 := by decide
  have hremove : remove ⟨[.key "a", .down "s" (.each (.keys ["u", "v"]))]⟩
      (.mapping [("a", .null),
        ("s", .sequence [.mapping [("v", .null), ("w", .null)], .ofInt 1])]) =
        (true, .mapping [("s", .sequence [.mapping [("w", .null)], .ofInt 1])]) := by
    decide +kernel
  have h := remove_remove ⟨[.key "a", .down "s" (.each (.keys ["u", "v"]))]⟩
    (.mapping [("a", .null), ("s", .sequence [.mapping [("v", .null), ("w", .null)], .ofInt 1])])
  rw [hremove] at h
  exact ⟨hp, hn, h.1, h.2 _ hp hn⟩

end TreePaths.Keymap
