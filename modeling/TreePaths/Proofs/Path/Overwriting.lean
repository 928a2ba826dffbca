import TreePaths.Proofs.Path.ReadBack

/-!
# Setting over an earlier write

A value that is set along a path which appends nothing replaces all that was written along this path
before: the tree is the same as if it had been set at once, down to the order of entries
(`set_write`). For what the earlier write created or converted on its way, the later one would have
created or converted as well.

In a list of keys a name may be repeated, so the later write comes back to keys that it has set
already. What carries the argument over the list is that all its keys are present after the earlier
write: keys that are present may be set in any order, and what they held does not matter.
-/

namespace TreePaths

namespace Entries

variable {ks : List String} {k : String} {es : Entries Tree}

/-- What a key held is lost when it is among the keys that are set. -/
theorem foldl_insert_of_mem (hk : k ∈ ks) (hes : k ∈ es.keys) (a w : Tree) :
    ks.foldl (fun es l => insert l w es) (insert k a es) =
      ks.foldl (fun es l => insert l w es) es := by
  induction ks generalizing es with
  | nil => exact absurd hk List.not_mem_nil
  | cons l ks ih =>
      rw [List.foldl_cons, List.foldl_cons]
      by_cases hl : k = l
      · rw [hl, insert_insert]
      · have hks : k ∈ ks := (List.mem_cons.1 hk).resolve_left hl
        rw [insert_comm_of_mem hes hl, ih hks (mem_keys_insert.2 (.inr hes))]

/-- Another key may be written to after the keys that are set, if all of these are present. -/
theorem foldl_insert_of_not_mem (hk : k ∉ ks) (hks : ∀ l ∈ ks, l ∈ es.keys) (a w : Tree) :
    ks.foldl (fun es l => insert l w es) (insert k a es) =
      insert k a (ks.foldl (fun es l => insert l w es) es) := by
  induction ks generalizing es with
  | nil => rfl
  | cons l ks ih =>
      rw [List.mem_cons, not_or] at hk
      rw [List.forall_mem_cons] at hks
      have hpresent : ∀ m ∈ ks, m ∈ (insert l w es).keys :=
        fun m hm => mem_keys_insert.2 (.inr (hks.2 m hm))
      rw [List.foldl_cons, List.foldl_cons, ← insert_comm_of_mem hks.1 (Ne.symm hk.1),
        ih hk.2 hpresent]

end Entries

namespace Path

theorem mem_keys_foldl_atKey (mode : Write) (v : Tree) {ks : List String} {k : String}
    {es : Entries Tree} (h : k ∈ ks ∨ k ∈ es.keys) :
    k ∈ (ks.foldl (fun es k => mode.atKey v k es) es).keys := by
  induction ks generalizing es with
  | nil => exact h.resolve_left List.not_mem_nil
  | cons l ks ih =>
      rw [List.mem_cons, or_comm (a := k = l), or_assoc] at h
      exact ih (h.imp_right Entries.mem_keys_insert.2)

/-- Setting some keys replaces what was written to them before. -/
theorem foldl_set_foldl_atKey (mode : Write) (v w : Tree) (ks : List String) (es : Entries Tree) :
    ks.foldl (fun es k => Entries.insert k w es) (ks.foldl (fun es k => mode.atKey v k es) es) =
      ks.foldl (fun es k => Entries.insert k w es) es := by
  induction ks using List.reverseRecOn with
  | nil => rfl
  | append_singleton ks k ih =>
      have hpresent : ∀ l ∈ ks, l ∈ (ks.foldl (fun es k => mode.atKey v k es) es).keys :=
        fun l hl => mem_keys_foldl_atKey mode v (.inl hl)
      simp only [List.foldl_append, List.foldl_cons, List.foldl_nil]
      rw [Write.atKey]
      -- The last key is set once more at the end, whether or not it occurred before.
      by_cases hk : k ∈ ks
      · rw [Entries.foldl_insert_of_mem hk (hpresent k hk), ih]
      · rw [Entries.foldl_insert_of_not_mem hk hpresent, ih, Entries.insert_insert]

/-- Setting along a path replaces what was written along it before, in whichever way. -/
theorem set_write {p : Path} (h : p.PushFree) (mode : Write) (t v w : Tree) :
    p.set (p.write mode v t) w = p.set t w := by
  unfold set
  induction p generalizing t with
  | key k => exact congrArg Tree.mapping (Entries.insert_insert k _ w _)
  | keys ks => exact congrArg Tree.mapping (foldl_set_foldl_atKey mode v w ks t.entries)
  | push => exact h.elim
  | each inner ih =>
      cases t with
      | sequence ts =>
          have hinner : ∀ t ∈ ts, inner.write .set w (inner.write mode v t) =
              inner.write .set w t := fun t _ => ih h t
          rw [write, write, write, List.map_map]
          exact congrArg Tree.sequence (List.map_congr_left hinner)
      | _ => rfl
  | down k rest ih =>
      have hrest : (fun t => rest.write .set w (rest.write mode v t)) = rest.write .set w :=
        funext fun t => ih h t
      rw [write, write, write, Tree.entries_mapping, Entries.update_update, hrest]

/-- A value that is set twice along a path is set as if only the second time. -/
theorem set_set {p : Path} (h : p.PushFree) (t v w : Tree) : p.set (p.set t v) w = p.set t w :=
  set_write h .set t v w

theorem set_set_repeated_names :
    PushFree (.down "0" (.each (.keys ["y", "x", "y"]))) ∧
      set (.down "0" (.each (.keys ["y", "x", "y"])))
          (set (.down "0" (.each (.keys ["y", "x", "y"])))
            (.sequence [.sequence [.ofInt 5, .mapping [("x", .ofInt 1)], .sequence [.null]]])
            (.sequence [.empty]))
          .null =
        .mapping [("0", .sequence [.mapping [("y", .null), ("x", .null)],
          .mapping [("x", .null), ("y", .null)],
          .mapping [("0", .null), ("y", .null), ("x", .null)]])] := by
  have h : PushFree (.down "0" (.each (.keys ["y", "x", "y"]))) := trivial
  exact ⟨h, (set_set h _ _ _).trans (by cbv)⟩

end Path

end TreePaths
