import Mathlib.Data.List.Forall2
import Mathlib.Data.Option.Basic
import TreePaths.Projection.Basic

/-!
# The fields that a projection reads

A projection looks at a record through the fields that its directives name, wherever in the
projection they stand. What a directive makes of a tree is therefore the same function for two
records that agree on those fields (`apply_eq_of_agree`), whatever tree the earlier records have
led to; and records that agree one by one lead to the same tree, key order included.
-/

namespace TreePaths

mutual

/-- The fields that a directive or anything in it names. -/
def Directive.fields : Directive → List String
  | .group field body => field :: Directive.fieldsAll body
  | .bucket _ body => Directive.fieldsAll body
  | .copy field _ => [field]
  | .slot body => Directive.fieldsAll body

/-- The fields that some directives or anything in them name. -/
def Directive.fieldsAll : List Directive → List String
  | [] => []
  | d :: ds => d.fields ++ Directive.fieldsAll ds

end

/-- Each of some keys is absent from both of two mappings, or has the same value in both. -/
def Entries.AgreeOn (ks : List String) (es fs : Entries Tree) : Prop :=
  ∀ k ∈ ks, lookup k es = lookup k fs

instance (ks : List String) (es fs : Entries Tree) : Decidable (es.AgreeOn ks fs) :=
  inferInstanceAs (Decidable (∀ k ∈ ks, Entries.lookup k es = Entries.lookup k fs))

/-- Two records are mappings that agree on some fields, or neither of them is a mapping. -/
def Tree.AgreeOn (fields : List String) (r r' : Tree) : Prop :=
  Option.Rel (Entries.AgreeOn fields) r.mapping? r'.mapping?

namespace Directive

variable {record record' : Entries Tree}

theorem applyAll_eq_of_agree {ds : List Directive}
    (hds : ∀ d ∈ ds, record.AgreeOn d.fields record' → d.apply record = d.apply record')
    (h : record.AgreeOn (fieldsAll ds) record') : applyAll record ds = applyAll record' ds := by
  funext t
  induction ds generalizing t with
  | nil => rfl
  | cons d ds ih =>
      obtain ⟨hd, hds⟩ := List.forall_mem_cons.1 hds
      obtain ⟨hfirst, hrest⟩ := List.forall_mem_append.1 h
      rw [applyAll, applyAll, hd hfirst, ih hds hrest]

/-- A directive does the same with two records that agree on the fields which it names. -/
theorem apply_eq_of_agree {d : Directive} (h : record.AgreeOn d.fields record') :
    d.apply record = d.apply record' := by
  induction d using Directive.induction with
  | copy field target =>
      have hfield := List.forall_mem_singleton.1 h
      funext t
      rw [apply, apply, hfield]
  | group field body ih =>
      obtain ⟨hfield, hbody⟩ := List.forall_mem_cons.1 h
      funext t
      rw [apply, apply, hfield, applyAll_eq_of_agree ih hbody]
  | bucket k body ih =>
      funext t
      rw [apply, apply, applyAll_eq_of_agree ih h]
  | slot body ih =>
      funext t
      rw [apply, apply, applyAll_eq_of_agree ih h]

end Directive

namespace Projection

/-- The fields that a projection names anywhere. -/
def fields (p : Projection) : List String := Directive.fieldsAll p.directives

theorem addRecord_eq_of_agree {p : Projection} {r r' : Tree} (h : r.AgreeOn p.fields r')
    (t : Tree) : p.addRecord t r = p.addRecord t r' := by
  unfold Tree.AgreeOn at h
  rw [addRecord, addRecord]
  generalize r.mapping? = x at h ⊢
  generalize r'.mapping? = y at h ⊢
  cases h with
  | none => rfl
  | some h =>
      have hall := Directive.applyAll_eq_of_agree (fun d _ => Directive.apply_eq_of_agree) h
      exact congrFun hall t

/-- Fields that a projection does not name have no influence on the tree that it yields. -/
theorem run_eq_of_agree {p : Projection} {rs rs' : List Tree}
    (h : List.Forall₂ (Tree.AgreeOn p.fields) rs rs') : p.run rs = p.run rs' := by
  rw [run, run]
  generalize Tree.empty = t
  induction h generalizing t with
  | nil => rfl
  | cons hr _ ih => rw [List.foldl_cons, List.foldl_cons, addRecord_eq_of_agree hr, ih]

theorem run_eq_of_agree_unnamed :
    List.Forall₂ (Tree.AgreeOn (fields ⟨[.group "d" [.slot [.copy "n" "who"]],
        .bucket "all" [.copy "x" "x"]]⟩))
      [.mapping [("d", .ofText "A"), ("n", .ofInt 1), ("who", .ofInt 2)], .ofInt 3,
        .mapping [("x", .null), ("A", .ofText "d")]]
      [.mapping [("n", .ofInt 1), ("all", .null), ("d", .ofText "A")], .null,
        .mapping [("x", .null)]] ∧
    run ⟨[.group "d" [.slot [.copy "n" "who"]], .bucket "all" [.copy "x" "x"]]⟩
      [.mapping [("n", .ofInt 1), ("all", .null), ("d", .ofText "A")], .null,
        .mapping [("x", .null)]] =
      .mapping [("A", .sequence [.mapping [("who", .ofInt 1)]]),
        ("all", .mapping [("x", .null)])] := by
  have h : List.Forall₂ (Tree.AgreeOn (fields ⟨[.group "d" [.slot [.copy "n" "who"]],
        .bucket "all" [.copy "x" "x"]]⟩))
      [.mapping [("d", .ofText "A"), ("n", .ofInt 1), ("who", .ofInt 2)], .ofInt 3,
        .mapping [("x", .null), ("A", .ofText "d")]]
      [.mapping [("n", .ofInt 1), ("all", .null), ("d", .ofText "A")], .null,
        .mapping [("x", .null)]] :=
    .cons (.some (by decide +kernel)) (.cons .none (.cons (.some (by decide +kernel)) .nil))
  refine ⟨h, ?_⟩
  rw [← run_eq_of_agree h]
  decide +kernel

end Projection

end TreePaths
