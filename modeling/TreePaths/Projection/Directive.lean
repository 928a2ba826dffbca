import TreePaths.Options
import TreePaths.Projection.Error
import TreePaths.Text.Affix
import TreePaths.Text.Fields

/-!
# Directives of a projection

A projection is written as a tree and read as a list of directives. An entry whose key starts with a
colon groups records by a field, any other entry with a container makes a bucket, and a text copies
a field, under another name if a bar separates the two. A container that is an element of a sequence
makes a slot.

Containers may be nested up to a limit, where the outermost one is at level zero. The level is
checked on the way in, also of a value that turns out to be a leaf under a key. The first fault on
the way through the tree is reported.
-/

namespace TreePaths

/-- One thing that a projection does with a record. -/
inductive Directive where
  /-- Files the record under the value of a field. -/
  | group (field : String) (body : List Directive)
  /-- Files the record under a fixed key. -/
  | bucket (key : String) (body : List Directive)
  /-- Copies the value of a field to a key. -/
  | copy (field : String) (target : String)
  /-- Files the record in a place of its own. -/
  | slot (body : List Directive)

namespace Directive

/-- Induction over directives, in which one with a body may use the statement for all of it. -/
@[elab_as_elim] theorem induction {P : Directive → Prop}
    (group : ∀ field body, (∀ d ∈ body, P d) → P (group field body))
    (bucket : ∀ key body, (∀ d ∈ body, P d) → P (bucket key body))
    (copy : ∀ field target, P (copy field target))
    (slot : ∀ body, (∀ d ∈ body, P d) → P (slot body)) (d : Directive) : P d :=
  @Directive.rec P (fun ds => ∀ d ∈ ds, P d) group bucket copy slot
    (fun _ h => absurd h List.not_mem_nil)
    (fun _ _ hd hds => List.forall_mem_cons.2 ⟨hd, hds⟩) d

/-- What starts the key of an entry that groups records. -/
def groupMark : String := ":"

/-- The directive that copies what a text names: a field, or a field and the key it is copied to. -/
def ofText (text : String) : Directive :=
  match Text.fields '|' text.toList with
  | [field, target] => copy (String.ofList field) (String.ofList target)
  | _ => copy text text

/-- The directive that a leaf stands for, at the place that a message would give. -/
def ofLeaf (place : String) (t : Tree) : Except ProjectionError Directive :=
  match t.text? with
  | some text => .ok (ofText text)
  | none => .error (.notText t.kind place)

end Directive

mutual

/-- The directives that a tree spells, at a place and at a level of nesting. -/
def Directive.ofTree (limit level : Nat) (place : String) (t : Tree) :
    Except ProjectionError (List Directive) :=
  if limit < level then .error (.tooDeep limit)
  else
    match t with
    | .mapping es => Directive.ofEntries limit level es
    | .sequence ts => Directive.ofItems limit level 0 ts
    | t => (Directive.ofLeaf place t).map ([·])

/-- The directives that the elements of a sequence spell, counted from `index`. -/
def Directive.ofItems (limit level index : Nat) :
    List Tree → Except ProjectionError (List Directive)
  | [] => .ok []
  | t :: ts =>
    Except.bind
      (if t.isContainer then
        (Directive.ofTree limit (level + 1) index.repr t).map Directive.slot
      else Directive.ofLeaf index.repr t)
      fun directive => (Directive.ofItems limit level (index + 1) ts).map (directive :: ·)

/-- The directives that the entries of a mapping spell. -/
def Directive.ofEntries (limit level : Nat) :
    List (String × Tree) → Except ProjectionError (List Directive)
  | [] => .ok []
  | (k, t) :: es =>
    Except.bind
      (if Text.begins Directive.groupMark k then
        (Directive.ofTree limit (level + 1) k t).map
          (Directive.group (Text.withoutStart Directive.groupMark k))
      else if t.text?.isSome then Directive.ofLeaf k t
      else (Directive.ofTree limit (level + 1) k t).map (Directive.bucket k))
      fun directive => (Directive.ofEntries limit level es).map (directive :: ·)

end

end TreePaths
