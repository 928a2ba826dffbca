import TreePaths.Proofs.Projection.Spelling

/-!
# The first fault of a projection

A tree is read as a projection from the outside to the inside and from front to back, and the first
fault on the way is reported. `Tree.sites` lists a tree and everything in it in just this order, and
`Site.fault?` says what is wrong at one site, seen on its own. Reading fails with the first fault in
the list, and succeeds if there is none (`error?_ofTree`).

Two kinds of fault follow from this. If all leaves are texts, only the levels matter, where a text
under a grouping key counts as a container would (`ofTree_text_leaves`). If no container is near the
limit, only the leaves matter, and the first of them that is not a text is reported with its place
(`ofTree_first_leaf`).
-/

namespace TreePaths

/-- Where a tree stands in the container around it, if there is one. -/
inductive Place where
  | root
  | index (i : Nat)
  | key (k : String)

namespace Place

/-- What a message shows of a place. -/
def text : Place → String
  | root => ""
  | index i => i.repr
  | key k => k

/-- Whether records are grouped into what stands at a place. -/
def isGroup : Place → Bool
  | key k => Text.begins Directive.groupMark k
  | _ => false

/-- Whether a tree at a place is read on a level of its own, which is checked then. -/
def opens (t : Tree) : Place → Bool
  | key k => Text.begins Directive.groupMark k || t.text?.isNone
  | _ => t.isContainer

theorem opens_of_container {t : Tree} (ht : t.isContainer = true) (place : Place) :
    place.opens t = true := by
  cases place with
  | key k =>
      have htext : t.text? = none := by
        cases t with
        | scalar a => cases ht
        | _ => rfl
      rw [opens, htext]
      exact Bool.or_true _
  | _ => exact ht

theorem opens_of_text {t : Tree} (ht : t.text?.isSome = true) (place : Place) :
    place.opens t = place.isGroup := by
  obtain ⟨s, hs⟩ := Option.isSome_iff_exists.1 ht
  obtain rfl := Tree.text?_eq_some_iff.1 hs
  cases place with
  | key k => exact Bool.or_false _
  | _ => rfl

end Place

/-- A tree at its place, and the number of containers around it. -/
structure Site where
  level : Nat
  place : Place
  tree : Tree

/-- What is wrong at a site, where containers may be nested up to a limit. -/
def Site.fault? (limit : Nat) (s : Site) : Option ProjectionError :=
  if limit < s.level ∧ s.place.opens s.tree then some (.tooDeep limit)
  else if s.tree.isContainer ∨ s.tree.text?.isSome then none
  else some (.notText s.tree.kind s.place.text)

mutual

/-- A tree and everything in it, a container before its members and these in order. -/
def Tree.sites (level : Nat) (place : Place) : Tree → List Site
  | .null => [⟨level, place, .null⟩]
  | .scalar a => [⟨level, place, .scalar a⟩]
  | .sequence ts => ⟨level, place, .sequence ts⟩ :: Tree.sitesOfItems (level + 1) 0 ts
  | .mapping es => ⟨level, place, .mapping es⟩ :: Tree.sitesOfEntries (level + 1) es

/-- The sites of elements, counted from `index`. -/
def Tree.sitesOfItems (level index : Nat) : List Tree → List Site
  | [] => []
  | t :: ts => t.sites level (.index index) ++ Tree.sitesOfItems level (index + 1) ts

/-- The sites of entries. -/
def Tree.sitesOfEntries (level : Nat) : List (String × Tree) → List Site
  | [] => []
  | (k, t) :: es => t.sites level (.key k) ++ Tree.sitesOfEntries level es

end

namespace Tree

/-- The leaves of a tree in order. -/
def leaves (t : Tree) : List Site := (t.sites 0 .root).filter fun s => !s.tree.isContainer

/-- The containers of a tree in order, of which the outermost is at level zero. -/
def containers (t : Tree) : List Site := (t.sites 0 .root).filter fun s => s.tree.isContainer

theorem mem_leaves {t : Tree} {s : Site} :
    s ∈ t.leaves ↔ s ∈ t.sites 0 .root ∧ s.tree.isContainer = false := by
  rw [leaves, List.mem_filter, Bool.not_eq_true']

theorem mem_containers {t : Tree} {s : Site} :
    s ∈ t.containers ↔ s ∈ t.sites 0 .root ∧ s.tree.isContainer = true :=
  List.mem_filter

theorem sites_leaf {t : Tree} (ht : t.isContainer = false) (level : Nat) (place : Place) :
    t.sites level place = [⟨level, place, t⟩] := by
  cases t with
  | sequence ts => cases ht
  | mapping es => cases ht
  | _ => rfl

/-- The sites of a tree start with the tree itself. -/
theorem exists_sites_eq_cons (t : Tree) (level : Nat) (place : Place) :
    ∃ rest, t.sites level place = ⟨level, place, t⟩ :: rest := by
  cases t <;> exact ⟨_, rfl⟩

theorem sitesOfItems_eq (level index : Nat) (ts : List Tree) :
    sitesOfItems level index ts =
      (ts.zipIdx index).flatMap fun t => t.1.sites level (.index t.2) := by
  induction ts generalizing index with
  | nil => rfl
  | cons t ts ih => rw [sitesOfItems, ih, List.zipIdx_cons, List.flatMap_cons]

theorem sitesOfEntries_eq (level : Nat) (es : Entries Tree) :
    sitesOfEntries level es = es.flatMap fun e => e.2.sites level (.key e.1) := by
  induction es with
  | nil => rfl
  | cons e es ih => rw [sitesOfEntries, ih, List.flatMap_cons]

/-- Nothing is deeper than one level below some container. -/
theorem level_le_of_mem_sites {t : Tree} {level limit : Nat} {place : Place}
    (hlevel : level ≤ limit)
    (hc : ∀ c ∈ t.sites level place, c.tree.isContainer = true → c.level < limit) :
    ∀ s ∈ t.sites level place, s.level ≤ limit := by
  induction t using Tree.induction generalizing level place with
  | null => exact List.forall_mem_singleton.2 hlevel
  | scalar a => exact List.forall_mem_singleton.2 hlevel
  | sequence ts ih =>
      rw [sites, List.forall_mem_cons] at hc ⊢
      obtain ⟨hlt, hc⟩ := hc
      refine ⟨hlevel, fun s hs => ?_⟩
      rw [sitesOfItems_eq] at hc hs
      obtain ⟨⟨u, i⟩, hu, hs⟩ := List.mem_flatMap.1 hs
      exact ih u (List.fst_mem_of_mem_zipIdx hu) (hlt rfl)
        (fun c hmem => hc c (List.mem_flatMap.2 ⟨_, hu, hmem⟩)) s hs
  | mapping es ih =>
      rw [sites, List.forall_mem_cons] at hc ⊢
      obtain ⟨hlt, hc⟩ := hc
      refine ⟨hlevel, fun s hs => ?_⟩
      rw [sitesOfEntries_eq] at hc hs
      obtain ⟨e, he, hs⟩ := List.mem_flatMap.1 hs
      exact ih e he (hlt rfl) (fun c hmem => hc c (List.mem_flatMap.2 ⟨_, he, hmem⟩)) s hs

end Tree

theorem findSome?_eq_map_find? {α β : Type} {xs : List α} {f : α → Option β} {p : α → Bool}
    {g : α → β} (h : ∀ x ∈ xs, f x = if p x then some (g x) else none) :
    xs.findSome? f = (xs.find? p).map g := by
  induction xs with
  | nil => rfl
  | cons x xs ih =>
      rw [List.forall_mem_cons] at h
      rw [List.findSome?_cons, List.find?_cons, h.1, ih h.2]
      cases p x <;> rfl

namespace Site

variable {limit level : Nat} {place : Place} {t : Tree}

theorem fault?_of_lt (hlevel : limit < level) (hopens : place.opens t = true) :
    fault? limit ⟨level, place, t⟩ = some (.tooDeep limit) :=
  if_pos ⟨hlevel, hopens⟩

theorem fault?_of_container_or_text (ht : t.isContainer = true ∨ t.text?.isSome = true) :
    fault? limit ⟨level, place, t⟩ =
      if limit < level ∧ place.opens t then some (.tooDeep limit) else none := by
  rw [fault?, if_pos ht]

theorem fault?_of_le (h : level ≤ limit) :
    fault? limit ⟨level, place, t⟩ =
      if t.isContainer ∨ t.text?.isSome then none else some (.notText t.kind place.text) :=
  if_neg fun hlt => Nat.not_lt.2 h hlt.1

theorem fault?_of_container (hlevel : level ≤ limit) (hc : t.isContainer = true) :
    fault? limit ⟨level, place, t⟩ = none := by
  rw [fault?_of_le hlevel, if_pos (.inl hc)]

/-- The fault of a leaf is that of reading it, unless it opens a level that is too deep. -/
theorem fault?_of_leaf (h : limit < level → place.opens t = false) (ht : t.isContainer = false) :
    fault? limit ⟨level, place, t⟩ = Outcome.error? (Directive.ofLeaf place.text t) := by
  have hlevel : ¬(limit < level ∧ place.opens t = true) := by
    rintro ⟨hlt, hopens⟩
    rw [h hlt] at hopens
    cases hopens
  rw [fault?, if_neg hlevel, Directive.ofLeaf, ht]
  cases t.text? <;> rfl

end Site

namespace Directive

open Outcome (error?)

variable {limit level : Nat}

/-- Reading a tree on a level of its own, at any place, fails with the first fault in it. -/
def ReportsFirst (limit : Nat) (t : Tree) : Prop :=
  ∀ (level : Nat) (place : Place), (limit < level → place.opens t = true) →
    error? (ofTree limit level place.text t) = (t.sites level place).findSome? (Site.fault? limit)

theorem error?_ofItems {ts : List Tree} (h : ∀ t ∈ ts, ReportsFirst limit t) (index : Nat) :
    error? (ofItems limit level index ts) =
      (Tree.sitesOfItems (level + 1) index ts).findSome? (Site.fault? limit) := by
  induction ts generalizing index with
  | nil => rfl
  | cons t ts ih =>
      rw [List.forall_mem_cons] at h
      rw [ofItems, Outcome.error?_bind_map, ih h.2, Tree.sitesOfItems, List.findSome?_append]
      congr 1
      cases hc : t.isContainer with
      | true =>
          rw [if_pos rfl, Outcome.error?_map]
          exact h.1 (level + 1) (.index index) fun _ => hc
      | false =>
          rw [if_neg Bool.false_ne_true, Tree.sites_leaf hc, List.findSome?_singleton]
          have hopens : (Place.index index).opens t = false := hc
          exact (Site.fault?_of_leaf (fun _ => hopens) hc).symm

theorem error?_ofEntries {es : Entries Tree} (h : ∀ e ∈ es, ReportsFirst limit e.2) :
    error? (ofEntries limit level es) =
      (Tree.sitesOfEntries (level + 1) es).findSome? (Site.fault? limit) := by
  induction es with
  | nil => rfl
  | cons e es ih =>
      obtain ⟨k, t⟩ := e
      rw [List.forall_mem_cons] at h
      rw [ofEntries, Outcome.error?_bind_map, ih h.2, Tree.sitesOfEntries, List.findSome?_append]
      congr 1
      have hopens : (Place.key k).opens t = (Text.begins groupMark k || t.text?.isNone) := rfl
      cases hk : Text.begins groupMark k with
      | true =>
          rw [if_pos rfl, Outcome.error?_map]
          exact h.1 (level + 1) (.key k) fun _ => by rw [hopens, hk, Bool.true_or]
      | false =>
          rw [if_neg Bool.false_ne_true]
          cases ht : t.text? with
          | none =>
              rw [Option.isSome_none, if_neg Bool.false_ne_true, Outcome.error?_map]
              exact h.1 (level + 1) (.key k) fun _ => by rw [hopens, ht]; exact Bool.or_true _
          | some s =>
              obtain rfl := Tree.text?_eq_some_iff.1 ht
              rw [Option.isSome_some, if_pos rfl, Tree.sites_leaf rfl, List.findSome?_singleton]
              exact (Site.fault?_of_leaf (fun _ => by rw [hopens, hk, ht]; rfl) rfl).symm

theorem error?_ofTree_of_lt {t : Tree} {place : Place} (hlevel : limit < level)
    (hopens : place.opens t = true) :
    error? (ofTree limit level place.text t) =
      (t.sites level place).findSome? (Site.fault? limit) := by
  obtain ⟨rest, hsites⟩ := t.exists_sites_eq_cons level place
  rw [ofTree_of_lt hlevel, hsites, List.findSome?_cons, Site.fault?_of_lt hlevel hopens]
  rfl

theorem error?_ofTree_leaf {t : Tree} (ht : t.isContainer = false) : ReportsFirst limit t := by
  intro level place hopens
  by_cases hlevel : limit < level
  · exact error?_ofTree_of_lt hlevel (hopens hlevel)
  · rw [ofTree_leaf ht, Tree.sites_leaf ht, List.findSome?_singleton, if_neg hlevel,
      Outcome.error?_map, Site.fault?_of_leaf (fun h => absurd h hlevel) ht]

/-- Reading a tree fails with its first fault, and succeeds if there is none. -/
theorem error?_ofTree (t : Tree) : ReportsFirst limit t := by
  induction t using Tree.induction with
  | null => exact error?_ofTree_leaf rfl
  | scalar a => exact error?_ofTree_leaf rfl
  | sequence ts ih =>
      intro level place hopens
      by_cases hlevel : limit < level
      · exact error?_ofTree_of_lt hlevel (hopens hlevel)
      · rw [ofTree, if_neg hlevel, Tree.sites, List.findSome?_cons,
          Site.fault?_of_container (Nat.not_lt.1 hlevel) rfl]
        exact error?_ofItems ih 0
  | mapping es ih =>
      intro level place hopens
      by_cases hlevel : limit < level
      · exact error?_ofTree_of_lt hlevel (hopens hlevel)
      · rw [ofTree, if_neg hlevel, Tree.sites, List.findSome?_cons,
          Site.fault?_of_container (Nat.not_lt.1 hlevel) rfl]
        exact error?_ofEntries ih

end Directive

namespace Projection

variable {t : Tree} {o : ProjectionOptions}

/-- The first fault in the order of the document is the one that is reported. -/
theorem error?_ofTree (t : Tree) (o : ProjectionOptions) :
    Outcome.error? (ofTree t o) = (t.sites 0 .root).findSome? (Site.fault? o.maxDepth) := by
  rw [ofTree, Outcome.error?_map]
  exact Directive.error?_ofTree t 0 .root fun h => absurd h (Nat.not_lt_zero _)

theorem exists_ofTree_iff :
    (∃ p, ofTree t o = .ok p) ↔ ∀ s ∈ t.sites 0 .root, s.fault? o.maxDepth = none := by
  rw [← Outcome.error?_eq_none_iff, error?_ofTree, List.findSome?_eq_none_iff]

/-- Where all leaves are texts, only a level can be at fault. -/
theorem fault?_of_text_leaves (h : ∀ s ∈ t.leaves, s.tree.text?.isSome = true) {s : Site}
    (hs : s ∈ t.sites 0 .root) (limit : Nat) :
    s.fault? limit =
      if limit < s.level ∧ s.place.opens s.tree then some (.tooDeep limit) else none := by
  cases hc : s.tree.isContainer with
  | true => exact Site.fault?_of_container_or_text (.inl hc)
  | false => exact Site.fault?_of_container_or_text (.inr (h s (Tree.mem_leaves.2 ⟨hs, hc⟩)))

theorem fault?_eq_none_iff_of_text_leaves (h : ∀ s ∈ t.leaves, s.tree.text?.isSome = true)
    {s : Site} (hs : s ∈ t.sites 0 .root) (limit : Nat) :
    s.fault? limit = none ↔ (s.place.opens s.tree = true → s.level ≤ limit) := by
  rw [fault?_of_text_leaves h hs]
  simp only [ite_eq_right_iff, reduceCtorEq, imp_false, not_and', Nat.not_lt]

/-- Where all leaves are texts, a projection can be read if and only if no container, and no text
that records are grouped into, is on a level beyond the limit. -/
theorem ofTree_text_leaves (h : ∀ s ∈ t.leaves, s.tree.text?.isSome = true) :
    ((∃ p, ofTree t o = .ok p) ↔
      (∀ s ∈ t.containers, s.level ≤ o.maxDepth) ∧
        ∀ s ∈ t.leaves, s.place.isGroup = true → s.level ≤ o.maxDepth) ∧
    ((¬∃ p, ofTree t o = .ok p) → ofTree t o = .error (.tooDeep o.maxDepth)) := by
  have hnone := fun s hs => fault?_eq_none_iff_of_text_leaves (s := s) h hs o.maxDepth
  constructor
  · rw [exists_ofTree_iff]
    constructor
    · intro hok
      refine ⟨fun s hs => ?_, fun s hs hgroup => ?_⟩
      · obtain ⟨hs, hc⟩ := Tree.mem_containers.1 hs
        exact (hnone s hs).1 (hok s hs) (Place.opens_of_container hc _)
      · have hmem := (Tree.mem_leaves.1 hs).1
        exact (hnone s hmem).1 (hok s hmem) ((Place.opens_of_text (h s hs) _).trans hgroup)
    · rintro ⟨hcontainers, hleaves⟩ s hs
      refine (hnone s hs).2 fun hopens => ?_
      cases hc : s.tree.isContainer with
      | true => exact hcontainers s (Tree.mem_containers.2 ⟨hs, hc⟩)
      | false =>
          have hleaf := Tree.mem_leaves.2 ⟨hs, hc⟩
          exact hleaves s hleaf ((Place.opens_of_text (h s hleaf) _).symm.trans hopens)
  · intro hno
    cases he : Outcome.error? (ofTree t o) with
    | none => exact absurd (Outcome.error?_eq_none_iff.1 he) hno
    | some e =>
        obtain ⟨s, hs, hse⟩ := List.exists_of_findSome?_eq_some ((error?_ofTree t o).symm.trans he)
        rw [fault?_of_text_leaves h hs, Option.ite_none_right_eq_some, Option.some.injEq] at hse
        rw [Outcome.error?_eq_some_iff.1 he, hse.2]

theorem ofTree_text_leaves_nested_groups :
    (∀ s ∈ (Tree.mapping [(":d", .mapping [("x", .sequence [.ofText "n"]),
        (":e", .ofText "b")])]).leaves, s.tree.text?.isSome = true) ∧
      (∃ p, ofTree (.mapping [(":d", .mapping [("x", .sequence [.ofText "n"]),
        (":e", .ofText "b")])]) ⟨2⟩ = .ok p) ∧
      ofTree (.mapping [(":d", .mapping [("x", .sequence [.ofText "n"]),
        (":e", .ofText "b")])]) ⟨1⟩ = .error (.tooDeep 1) := by
  have h : ∀ s ∈ (Tree.mapping [(":d", .mapping [("x", .sequence [.ofText "n"]),
      (":e", .ofText "b")])]).leaves, s.tree.text?.isSome = true := by decide +kernel
  obtain ⟨hok, -⟩ := ofTree_text_leaves h (o := ⟨2⟩)
  obtain ⟨hfit, hdeep⟩ := ofTree_text_leaves h (o := ⟨1⟩)
  refine ⟨h, hok.2 ⟨by decide +kernel, by decide +kernel⟩, hdeep fun hread => ?_⟩
  exact absurd (hfit.1 hread).1 (by decide +kernel)

/-- A text that records are grouped into is refused where a container would be, although it is none
and no container is beyond the limit. -/
theorem ofTree_group_at_limit :
    (∀ s ∈ (Tree.mapping [(":f", .ofText "x")]).leaves, s.tree.text?.isSome = true) ∧
      (∀ s ∈ (Tree.mapping [(":f", .ofText "x")]).containers, s.level ≤ 0) ∧
      ofTree (.mapping [(":f", .ofText "x")]) ⟨0⟩ = .error (.tooDeep 0) := by
  refine ⟨by decide +kernel, by decide +kernel, ?_⟩
  cbv

/-- Where no container is at the limit, the first leaf that is not a text is reported. -/
theorem error?_ofTree_of_containers (h : ∀ s ∈ t.containers, s.level < o.maxDepth) :
    Outcome.error? (ofTree t o) =
      (t.leaves.find? fun s => s.tree.text?.isNone).map fun s =>
        .notText s.tree.kind s.place.text := by
  have hlevel : ∀ s ∈ t.sites 0 .root, s.level ≤ o.maxDepth :=
    Tree.level_le_of_mem_sites (Nat.zero_le _) fun c hc hcontainer =>
      h c (Tree.mem_containers.2 ⟨hc, hcontainer⟩)
  rw [error?_ofTree, Tree.leaves, List.find?_filter]
  refine findSome?_eq_map_find? fun s hs => ?_
  refine (Site.fault?_of_le (hlevel s hs)).trans ?_
  cases s.tree.isContainer <;> cases s.tree.text? <;> rfl

/-- Where no container is at the limit, a projection can be read if and only if all leaves are
texts. Otherwise the first one that is not is reported, with its kind and what its place shows. -/
theorem ofTree_first_leaf (h : ∀ s ∈ t.containers, s.level < o.maxDepth) :
    ((∃ p, ofTree t o = .ok p) ↔ ∀ s ∈ t.leaves, s.tree.text?.isSome = true) ∧
    ((¬∃ p, ofTree t o = .ok p) →
      ∃ s, t.leaves.find? (fun s => s.tree.text?.isNone) = some s ∧
        ofTree t o = .error (.notText s.tree.kind s.place.text)) := by
  have herror := error?_ofTree_of_containers h
  rw [← Outcome.error?_eq_none_iff, herror]
  constructor
  · rw [Option.map_eq_none_iff, List.find?_eq_none]
    simp only [Option.isNone_iff_eq_none, Option.isSome_iff_ne_none]
  · intro hno
    obtain ⟨s, hs⟩ := Option.ne_none_iff_exists'.1 fun hn => hno (Option.map_eq_none_iff.2 hn)
    rw [hs] at herror
    exact ⟨s, hs, Outcome.error?_eq_some_iff.1 herror⟩

theorem ofTree_first_leaf_in_group :
    (∀ s ∈ (Tree.mapping [("a", .sequence [.ofText "n", .mapping [(":d", .ofBool true)]]),
        ("b", .null)]).containers, s.level < 3) ∧
      ofTree (.mapping [("a", .sequence [.ofText "n", .mapping [(":d", .ofBool true)]]),
        ("b", .null)]) ⟨3⟩ = .error (.notText "bool" ":d") := by
  have h : ∀ s ∈ (Tree.mapping [("a", .sequence [.ofText "n", .mapping [(":d", .ofBool true)]]),
      ("b", .null)]).containers, s.level < 3 := by decide +kernel
  obtain ⟨hok, herror⟩ := ofTree_first_leaf h (o := ⟨3⟩)
  obtain ⟨s, hs, hfirst⟩ := herror fun hread => absurd (hok.1 hread) (by decide +kernel)
  obtain rfl : ⟨3, .key ":d", .ofBool true⟩ = s := Option.some.inj hs
  exact ⟨h, hfirst⟩

end Projection

end TreePaths
