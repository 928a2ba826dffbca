import TreePaths.Entries
import TreePaths.Number.Basic
import TreePaths.Number.Double
import TreePaths.Text.Decimal

/-!
# Trees

A document is a tree whose leaves are null and scalars and whose inner nodes are sequences and
mappings. A mapping lists its entries in the order in which their keys were first written.

The type does not exclude that a key is repeated in one mapping. `WellFormed` says that none is, at
any depth; every reader yields well-formed trees. Two views read a tree in one of its two inner
shapes: `mapping?` and `sequence?` are exact, while `entries` and `items` also say what a writer
finds where the shape is another one. A sequence is written into as the mapping of its decimal
indices to its elements, and every other shape gives way to an empty container.
-/

namespace TreePaths

/-- A leaf of a tree that carries a value. -/
inductive Scalar where
  | text (value : String)
  | number (value : Number)
  | bool (value : Bool)
deriving DecidableEq

/-- The key that a scalar is filed under: a text as it is, and anything else by its text. -/
def Scalar.key : Scalar → String
  | text s => s
  | number n => n.text
  | bool true => "true"
  | bool false => "false"

/-- A document. -/
inductive Tree where
  | null
  | scalar (value : Scalar)
  | sequence (items : List Tree)
  | mapping (entries : List (String × Tree))

instance : Inhabited Tree := ⟨.null⟩

namespace Tree

/-- Induction over trees, in which a container may use the statement for everything it holds. -/
@[elab_as_elim] theorem induction {P : Tree → Prop} (null : P null)
    (scalar : ∀ a, P (scalar a))
    (sequence : ∀ ts : List Tree, (∀ t ∈ ts, P t) → P (sequence ts))
    (mapping : ∀ es : Entries Tree, (∀ e ∈ es, P e.2) → P (mapping es)) (t : Tree) : P t :=
  @Tree.rec P (fun ts => ∀ t ∈ ts, P t) (fun es => ∀ e ∈ es, P e.2) (fun e => P e.2)
    null scalar sequence mapping
    (fun _ h => absurd h List.not_mem_nil)
    (fun _ _ ht hts => List.forall_mem_cons.2 ⟨ht, hts⟩)
    (fun _ h => absurd h List.not_mem_nil)
    (fun _ _ he hes => List.forall_mem_cons.2 ⟨he, hes⟩)
    (fun _ _ h => h) t

def empty : Tree := mapping []

def ofText (s : String) : Tree := scalar (.text s)

def ofBool (b : Bool) : Tree := scalar (.bool b)

def ofInt (i : Int) : Tree := scalar (.number (.integer i))

/-- A leaf that is a floating-point number, and null for a value that is not a finite number. -/
def ofDouble : Double → Tree
  | .finite x => scalar (.number (.real x))
  | _ => null

/-- The word for the shape of a tree. -/
def kind : Tree → String
  | null => "null"
  | scalar (.text _) => "string"
  | scalar (.number _) => "number"
  | scalar (.bool _) => "bool"
  | sequence _ => "sequence"
  | mapping _ => "mapping"

def isNull : Tree → Bool
  | null => true
  | _ => false

def isContainer : Tree → Bool
  | sequence _ | mapping _ => true
  | _ => false

/-- The text that a tree is, if it is a leaf with a text. -/
def text? : Tree → Option String
  | scalar (.text s) => some s
  | _ => none

def sequence? : Tree → Option (List Tree)
  | sequence items => some items
  | _ => none

def mapping? : Tree → Option (Entries Tree)
  | mapping es => some es
  | _ => none

@[simp] theorem sequence?_sequence (items : List Tree) : (sequence items).sequence? = some items :=
  rfl

@[simp] theorem mapping?_mapping (es : Entries Tree) : (mapping es).mapping? = some es := rfl

def child? (k : String) (t : Tree) : Option Tree := t.mapping?.bind (Entries.lookup k)

@[simp] theorem child?_mapping (k : String) (es : Entries Tree) :
    (mapping es).child? k = Entries.lookup k es := rfl

/-- Elements under their decimal indices, counted from `n`. -/
def indexed : Nat → List Tree → Entries Tree
  | _, [] => []
  | n, t :: ts => (n.repr, t) :: indexed (n + 1) ts

@[simp] theorem indexed_nil (n : Nat) : indexed n [] = [] := rfl

@[simp] theorem indexed_cons (n : Nat) (t : Tree) (ts : List Tree) :
    indexed n (t :: ts) = (n.repr, t) :: indexed (n + 1) ts := rfl

theorem keys_indexed (n : Nat) (ts : List Tree) :
    (indexed n ts).keys = (List.range' n ts.length).map Nat.repr := by
  induction ts generalizing n with
  | nil => rfl
  | cons t ts ih => simp [ih, List.range'_succ]

theorem distinct_indexed (n : Nat) (ts : List Tree) : (indexed n ts).Distinct := by
  unfold Entries.Distinct
  rw [keys_indexed]
  exact List.Pairwise.map _ (fun i j hij h => hij (Decimal.repr_injective h)) List.nodup_range'

/-- The entries that writing to a key finds: those of a mapping, the elements of a sequence under
their indices, and none in a leaf. -/
def entries : Tree → Entries Tree
  | mapping es => es
  | sequence items => indexed 0 items
  | _ => []

@[simp] theorem entries_mapping (es : Entries Tree) : (mapping es).entries = es := rfl

@[simp] theorem entries_sequence (ts : List Tree) : (sequence ts).entries = indexed 0 ts := rfl

/-- The elements that appending finds: those of a sequence, and none in any other shape. -/
def items : Tree → List Tree
  | sequence ts => ts
  | _ => []

@[simp] theorem items_sequence (ts : List Tree) : (sequence ts).items = ts := rfl

/-- A tree as a mapping, in the way writing to a key turns it into one. -/
def toMapping (t : Tree) : Tree := mapping t.entries

/-- A tree as a sequence, in the way appending turns it into one. -/
def toSequence (t : Tree) : Tree := sequence t.items

end Tree

mutual

/-- No mapping in the tree repeats a key. -/
def Tree.WellFormed : Tree → Prop
  | .sequence items => Tree.WellFormedItems items
  | .mapping es => Entries.Distinct es ∧ Tree.WellFormedEntries es
  | _ => True

def Tree.WellFormedItems : List Tree → Prop
  | [] => True
  | t :: ts => t.WellFormed ∧ Tree.WellFormedItems ts

def Tree.WellFormedEntries : List (String × Tree) → Prop
  | [] => True
  | (_, t) :: es => t.WellFormed ∧ Tree.WellFormedEntries es

end

namespace Tree

theorem wellFormedItems_iff {ts : List Tree} : WellFormedItems ts ↔ ∀ t ∈ ts, t.WellFormed := by
  induction ts with
  | nil => simp [WellFormedItems]
  | cons t ts ih => simp [WellFormedItems, ih]

theorem wellFormedEntries_iff {es : Entries Tree} :
    WellFormedEntries es ↔ ∀ e ∈ es, e.2.WellFormed := by
  induction es with
  | nil => simp [WellFormedEntries]
  | cons e es ih =>
      obtain ⟨k, t⟩ := e
      simp [WellFormedEntries, ih]

end Tree

mutual

/-- Decides whether two trees are the same down to the order of entries. -/
def Tree.decideEq : (s t : Tree) → Decidable (s = t)
  | .null, .null => .isTrue rfl
  | .scalar a, .scalar b => decidable_of_iff (a = b) (by simp)
  | .sequence ss, .sequence ts =>
    have := Tree.decideEqItems ss ts
    decidable_of_iff (ss = ts) (by simp)
  | .mapping es, .mapping fs =>
    have := Tree.decideEqEntries es fs
    decidable_of_iff (es = fs) (by simp)
  | .null, .scalar _ | .null, .sequence _ | .null, .mapping _ => .isFalse (by simp)
  | .scalar _, .null | .scalar _, .sequence _ | .scalar _, .mapping _ => .isFalse (by simp)
  | .sequence _, .null | .sequence _, .scalar _ | .sequence _, .mapping _ => .isFalse (by simp)
  | .mapping _, .null | .mapping _, .scalar _ | .mapping _, .sequence _ => .isFalse (by simp)

def Tree.decideEqItems : (ss ts : List Tree) → Decidable (ss = ts)
  | [], [] => .isTrue rfl
  | [], _ :: _ | _ :: _, [] => .isFalse (by simp)
  | s :: ss, t :: ts =>
    have := Tree.decideEq s t
    have := Tree.decideEqItems ss ts
    decidable_of_iff (s = t ∧ ss = ts) (by simp)

def Tree.decideEqEntries : (es fs : List (String × Tree)) → Decidable (es = fs)
  | [], [] => .isTrue rfl
  | [], _ :: _ | _ :: _, [] => .isFalse (by simp)
  | (k, s) :: es, (l, t) :: fs =>
    have := Tree.decideEq s t
    have := Tree.decideEqEntries es fs
    decidable_of_iff ((k = l ∧ s = t) ∧ es = fs) (by simp)

end

instance : DecidableEq Tree := Tree.decideEq

end TreePaths
