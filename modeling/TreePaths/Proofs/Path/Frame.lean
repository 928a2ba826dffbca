import Mathlib.Data.List.Infix
import TreePaths.Proofs.Path.ReadBack
import TreePaths.Proofs.Path.Removal

/-!
# What a path leaves alone

Below some keys that two paths have in common, one of them goes on with a key and the other one with
another key, or with a list of keys that does not contain the first one. What is removed along the
second path then does not change what is read along the first one. Neither does what is written,
unless the writer met a sequence on the way down: a sequence becomes a mapping of its indices when
it is written into, and keys are found there that were not found before.
-/

namespace TreePaths

/-- Where there is no sequence, writing finds under a key what reading finds. -/
theorem Tree.lookup_entries {t : Tree} (h : ∀ ts, t ≠ .sequence ts) (k : String) :
    Entries.lookup k t.entries = t.child? k := by
  cases t with
  | sequence ts => exact absurd rfl (h ts)
  | _ => rfl

namespace Path

/-- A path starts with a key. -/
def StartsAt (b : String) : Path → Prop
  | key k | down k _ => k = b
  | _ => False

/-- A path starts with another key, or is a list of other keys. -/
def StartsBeside (b : String) : Path → Prop
  | key k | down k _ => k ≠ b
  | keys ks => b ∉ ks
  | _ => False

/-- Neither a tree is a sequence nor anything in it that some keys lead to, one after another. -/
def NoSequenceAlong (ks : List String) (t : Tree) : Prop :=
  (∀ ts, t ≠ .sequence ts) ∧
    ∀ ns k, ns ++ [k] <+: ks → ∀ ts, (under ns (key k)).get t ≠ .sequence ts

variable {b : String} {p q : Path}

theorem startsAt_under (h : q.StartsAt b) (ks : List String) : ∃ k, (under ks q).StartsAt k := by
  cases ks with
  | nil => exact ⟨b, h⟩
  | cons k ks => exact ⟨k, rfl⟩

/-- A path that starts with a key depends on what stands under the key only. -/
theorem get_congr (h : q.StartsAt b) {s t : Tree} (hst : s.child? b = t.child? b) :
    q.get s = q.get t := by
  cases q with
  | key k =>
      obtain rfl : k = b := h
      rw [get, get, hst]
  | down k rest =>
      obtain rfl : k = b := h
      rw [get, get, hst]
  | _ => exact h.elim

theorem get_empty (h : q.StartsAt b) : q.get .empty = .null := by
  cases q with
  | key k => rfl
  | down k rest => rfl
  | _ => exact h.elim

/-! ## Removing -/

theorem child?_erase_down (k l : String) (rest : Path) (t : Tree) :
    ((down k rest).erase t).child? l =
      if k = l then (t.child? l).map rest.erase else t.child? l := by
  cases t with
  | mapping es => exact Entries.lookup_modify k l rest.erase es
  | _ => simp [erase, Tree.child?, Tree.mapping?]

theorem child?_erase_of_startsBeside (h : p.StartsBeside b) (t : Tree) :
    (p.erase t).child? b = t.child? b := by
  cases p with
  | key k => rw [child?_erase_key, if_neg h]
  | keys ks => rw [child?_erase_keys, if_neg h]
  | down k rest => rw [child?_erase_down, if_neg h]
  | _ => exact h.elim

theorem get_under_erase (hp : p.StartsBeside b) (hq : q.StartsAt b) (ks : List String) (t : Tree) :
    (under ks q).get ((under ks p).erase t) = (under ks q).get t := by
  induction ks generalizing t with
  | nil => exact get_congr hq (child?_erase_of_startsBeside hp t)
  | cons k ks ih =>
      rw [under_cons, under_cons, get, get, child?_erase_down, if_pos rfl]
      cases t.child? k with
      | none => rfl
      | some c => exact ih c

/-! ## Writing -/

theorem lookup_foldl_atKey (mode : Write) (v : Tree) {ks : List String} (h : b ∉ ks)
    (es : Entries Tree) :
    Entries.lookup b (ks.foldl (fun es k => mode.atKey v k es) es) = Entries.lookup b es := by
  induction ks generalizing es with
  | nil => rfl
  | cons k ks ih =>
      obtain ⟨hk, hks⟩ : b ≠ k ∧ b ∉ ks := by simpa using h
      rw [List.foldl_cons, ih hks, Write.atKey, Entries.lookup_insert_of_ne hk.symm]

theorem child?_write_of_startsBeside (h : p.StartsBeside b) (mode : Write) (v t : Tree) :
    (p.write mode v t).child? b = Entries.lookup b t.entries := by
  cases p with
  | key k =>
      rw [write, Tree.child?_mapping, Write.atKey, Entries.lookup_insert_of_ne h]
  | keys ks => rw [write, Tree.child?_mapping, lookup_foldl_atKey mode v h]
  | down k rest => rw [write, Tree.child?_mapping, Entries.lookup_update, if_neg h]
  | _ => exact h.elim

theorem placeholder_under (h : p.StartsBeside b) (ks : List String) :
    (under ks p).placeholder = .empty := by
  cases ks with
  | nil =>
      cases p with
      | push => exact h.elim
      | each inner => exact h.elim
      | _ => rfl
  | cons k ks => rfl

theorem noSequenceAlong_nil {t : Tree} : NoSequenceAlong [] t ↔ ∀ ts, t ≠ .sequence ts := by
  constructor
  · exact fun h => h.1
  · intro h
    refine ⟨h, fun ns k hns => ?_⟩
    simp at hns

theorem noSequenceAlong_cons {k : String} {ks : List String} {t : Tree} :
    NoSequenceAlong (k :: ks) t ↔
      (∀ ts, t ≠ .sequence ts) ∧ ∀ c, t.child? k = some c → NoSequenceAlong ks c := by
  constructor
  · intro h
    refine ⟨h.1, fun c hc => ⟨fun ts => ?_, fun ns l hns ts => ?_⟩⟩
    · have hk := h.2 [] k (by simp) ts
      rwa [under_nil, get, hc] at hk
    · have hl := h.2 (k :: ns) l (by simpa using hns) ts
      rwa [under_cons, get, hc] at hl
  · intro h
    refine ⟨h.1, fun ns l hns ts => ?_⟩
    cases ns with
    | nil =>
        obtain rfl : l = k := by simpa using hns
        rw [under_nil, get]
        cases hc : t.child? l with
        | none => simp
        | some c => exact (h.2 c hc).1 ts
    | cons n ns =>
        obtain ⟨rfl, hrest⟩ : n = k ∧ ns ++ [l] <+: ks := by simpa using hns
        rw [under_cons, get]
        cases hc : t.child? n with
        | none => simp
        | some c => exact (h.2 c hc).2 ns l hrest ts

theorem noSequenceAlong_empty (ks : List String) : NoSequenceAlong ks .empty := by
  have hroot : ∀ ts, Tree.empty ≠ .sequence ts := by simp [Tree.empty]
  cases ks with
  | nil => exact noSequenceAlong_nil.2 hroot
  | cons k ks => exact noSequenceAlong_cons.2 ⟨hroot, fun c hc => by cases hc⟩

theorem get_under_write (hp : p.StartsBeside b) (hq : q.StartsAt b) (mode : Write) (v : Tree)
    {ks : List String} {t : Tree} (h : NoSequenceAlong ks t) :
    (under ks q).get ((under ks p).write mode v t) = (under ks q).get t := by
  induction ks generalizing t with
  | nil =>
      refine get_congr hq ?_
      rw [under_nil, child?_write_of_startsBeside hp, Tree.lookup_entries h.1]
  | cons k ks ih =>
      rw [noSequenceAlong_cons] at h
      rw [under_cons, under_cons, get_write_down, Tree.lookup_entries h.1, get]
      cases hc : t.child? k with
      | none =>
          -- What is created at the missing key holds nothing along the other path.
          obtain ⟨l, hl⟩ := startsAt_under hq ks
          rw [Option.getD_none, placeholder_under hp, ih (noSequenceAlong_empty ks), get_empty hl]
      | some c => exact ih (h.2 c hc)

/-- What is removed or written beside a key does not change what is read at the key or below it,
except that a write may turn a sequence on the way into a mapping. -/
theorem get_beside (hp : p.StartsBeside b) (hq : q.StartsAt b) (ks : List String) (t : Tree) :
    (under ks q).get ((under ks p).remove t).2 = (under ks q).get t ∧
      (NoSequenceAlong ks t → ∀ v,
        (under ks q).get ((under ks p).set t v) = (under ks q).get t ∧
          (under ks q).get ((under ks p).add t v) = (under ks q).get t) :=
  ⟨get_under_erase hp hq ks t, fun h v =>
    ⟨get_under_write hp hq .set v h, get_under_write hp hq .add v h⟩⟩

theorem get_beside_below_list :
    StartsBeside "b" (.keys ["x", "y"]) ∧ StartsAt "b" (.down "b" (.each (.key "c"))) ∧
      NoSequenceAlong ["a"] (.mapping [("a", .mapping [("x", .sequence []),
        ("b", .sequence [.mapping [("c", .ofInt 1)], .null])])]) ∧
      (under ["a"] (.down "b" (.each (.key "c")))).get
        ((under ["a"] (.keys ["x", "y"])).add (.mapping [("a", .mapping [("x", .sequence []),
          ("b", .sequence [.mapping [("c", .ofInt 1)], .null])])]) (.ofBool true)) =
        .sequence [.ofInt 1, .null] := by
  have hp : StartsBeside "b" (.keys ["x", "y"]) := by simp [StartsBeside]
  have hq : StartsAt "b" (.down "b" (.each (.key "c"))) := rfl
  have h : NoSequenceAlong ["a"] (.mapping [("a", .mapping [("x", .sequence []),
      ("b", .sequence [.mapping [("c", .ofInt 1)], .null])])]) := by
    simp [noSequenceAlong_cons, noSequenceAlong_nil, Entries.lookup_cons]
  refine ⟨hp, hq, h, ?_⟩
  rw [((get_beside hp hq ["a"] _).2 h (.ofBool true)).2]
  decide +kernel

/-- The index of an element becomes a key when another key is written beside it. -/
example : (key "0").get ((key "a").set (.sequence [.ofBool true]) .null) ≠
    (key "0").get (.sequence [.ofBool true]) := by decide +kernel

end Path

end TreePaths
