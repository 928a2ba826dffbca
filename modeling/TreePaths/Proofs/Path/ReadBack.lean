import Mathlib.Data.List.Forall2
import TreePaths.Path.Access
import TreePaths.Proofs.Entries

/-!
# Reading back what was set

A value that is set along a path which appends nothing is read back along that path. How it comes
back depends on how the path ends, and, where the path enters a sequence, on what stood there
before: `FilledWith` says what is read, given what the writer found, and `filledWith_get_set` that
it is read.
-/

namespace TreePaths.Path

/-- Nothing is appended along a path. -/
def PushFree : Path → Prop
  | push => False
  | each inner => inner.PushFree
  | down _ rest => rest.PushFree
  | _ => True

/-- What is read along a path after `v` was set there, where the writer found a tree or nothing: the
value at a key, the value under each of several keys, and so on in turn for every element of a
sequence. A sequence that was missing is empty, and a value in its place reads as null. -/
def FilledWith (v : Tree) : Path → Option Tree → Tree → Prop
  | key _, _, r => r = v
  | keys ks, _, r => r = .mapping (ks.eraseDups.map fun k => (k, v))
  | push, _, _ => False
  | each _, none, r => r = .sequence []
  | each inner, some (.sequence ts), r =>
    ∃ rs, r = .sequence rs ∧ List.Forall₂ (fun t r => FilledWith v inner (some t) r) ts rs
  | each _, some _, r => r = .null
  | down k rest, found, r => FilledWith v rest (found.bind fun t => Entries.lookup k t.entries) r

theorem lookup_foldl_set (v : Tree) (ks : List String) (k : String) (es : Entries Tree) :
    Entries.lookup k (ks.foldl (fun es k => Write.set.atKey v k es) es) =
      if k ∈ ks then some v else Entries.lookup k es := by
  induction ks generalizing es with
  | nil => rfl
  | cons l ks ih =>
      rw [List.foldl_cons, ih]
      have hset : Write.set.atKey v l es = Entries.insert l v es := rfl
      rw [hset, Entries.lookup_insert]
      by_cases hk : k ∈ ks
      · simp [hk]
      · simp [hk, eq_comm]

theorem ofList_map_const (v : Tree) (ks : List String) :
    Entries.ofList (ks.map fun k => (k, v)) = ks.eraseDups.map fun k => (k, v) := by
  refine Entries.ext_keys (Entries.distinct_ofList _) ?_ ?_
  · rw [Entries.keys_ofList, Entries.keys_map_self, Entries.keys_map_self]
  · intro k
    rw [Entries.lookup_ofList, ← List.map_reverse, Entries.lookup_map_self,
      Entries.lookup_map_self]
    simp

theorem get_keys_set (ks : List String) (t v : Tree) :
    (keys ks).get ((keys ks).write .set v t) = .mapping (ks.eraseDups.map fun k => (k, v)) := by
  have hread : ks.filterMap (fun k => (Entries.lookup k
      (ks.foldl (fun es k => Write.set.atKey v k es) t.entries)).map fun v => (k, v)) =
        ks.map fun k => (k, v) := by
    rw [← List.filterMap_eq_map]
    refine List.filterMap_congr fun k hk => ?_
    rw [lookup_foldl_set, if_pos hk]
    rfl
  rw [write, get, Tree.mapping?_mapping]
  simp only [hread, ofList_map_const]

/-- What is read below a key is what was written there, along this path or another one. -/
theorem get_write_down (mode : Write) (v : Tree) (k : String) (rest other : Path) (t : Tree) :
    (down k other).get ((down k rest).write mode v t) =
      other.get (rest.write mode v ((Entries.lookup k t.entries).getD rest.placeholder)) := by
  rw [write, get, Tree.child?_mapping, Entries.lookup_update, if_pos rfl]

/-- What is missing is created before it is written to. -/
theorem filledWith_get_write {p : Path} (h : p.PushFree) (v : Tree) (found : Option Tree) :
    FilledWith v p found (p.get (p.write .set v (found.getD p.placeholder))) := by
  induction p generalizing found with
  | key k =>
      rw [write, get, Tree.child?_mapping, Write.atKey, Entries.lookup_insert_self]
      rfl
  | keys ks => exact get_keys_set ks _ v
  | push => exact h
  | each inner ih =>
      cases found with
      | none => rfl
      | some t =>
          cases t with
          | sequence ts =>
              refine ⟨_, rfl, ?_⟩
              rw [List.map_map, List.forall₂_map_right_iff, List.forall₂_same]
              intro t _
              exact ih h (some t)
          | _ => rfl
  | down k rest ih =>
      rw [get_write_down]
      cases found with
      | none => exact ih h none
      | some t => exact ih h (Entries.lookup k t.entries)

/-- A value that is set is read back, whatever the tree was. -/
theorem filledWith_get_set {p : Path} (h : p.PushFree) (t v : Tree) :
    FilledWith v p (some t) (p.get (p.set t v)) :=
  filledWith_get_write h v (some t)

theorem filledWith_get_set_nested :
    PushFree (.down "0" (.each (.down "b" (.each (.keys ["x", "y", "x"]))))) ∧
      FilledWith .null (.down "0" (.each (.down "b" (.each (.keys ["x", "y", "x"])))))
        (some (.sequence [.sequence [.ofInt 1, .mapping [("b", .sequence [.empty])],
          .mapping [("b", .ofBool true)]]]))
        (.sequence [.sequence [], .sequence [.mapping [("x", .null), ("y", .null)]], .null]) := by
  have h : PushFree (.down "0" (.each (.down "b" (.each (.keys ["x", "y", "x"]))))) := trivial
  exact ⟨h, filledWith_get_set h (.sequence [.sequence [.ofInt 1,
    .mapping [("b", .sequence [.empty])], .mapping [("b", .ofBool true)]]]) .null⟩

end TreePaths.Path
