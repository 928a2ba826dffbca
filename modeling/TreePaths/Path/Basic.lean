/-!
# Paths

A path addresses positions in a tree. It descends by keys and ends in one of four ways: at a key, at
a list of keys, at the place where a sequence is appended to, or at every element of a sequence,
where an inner path goes on. The type admits exactly these shapes, so nothing can follow an end.

`Path.steps` lists a path as a sequence of `Step`s, the form in which paths are assembled by hand.
There every order of steps can be written down, and `Path.ofSteps` says which are paths.

The text of a path puts a colon between steps, except before a bracket that holds an inner path.
-/

namespace TreePaths

/-- A path into a tree. -/
inductive Path where
  /-- Ends at the value of a key. -/
  | key (name : String)
  /-- Ends at the values of several keys of one mapping. -/
  | keys (names : List String)
  /-- Ends behind the last element of a sequence. -/
  | push
  /-- Goes on with the inner path at every element of a sequence. -/
  | each (inner : Path)
  /-- Descends to the value of a key. -/
  | down (name : String) (rest : Path)
deriving DecidableEq

/-- A step of a path that is assembled by hand. -/
inductive Step where
  | key (name : String)
  | keys (names : List String)
  | push
  | each (inner : List Step)

namespace Step

/-- Whether further steps may follow. -/
def descends : Step → Bool
  | key _ => true
  | _ => false

/-- What stands between a step and the one before it. -/
def separator : Step → List Char
  | each _ => []
  | _ => [':']

end Step

mutual

/-- The characters of a step, without what separates it from the one before. -/
def Step.chars : Step → List Char
  | .key name => name.toList
  | .keys names => List.intercalate [','] (names.map String.toList)
  | .push => ['[', ']']
  | .each inner => ['['] ++ Step.charsAll inner ++ [']']

def Step.charsAll : List Step → List Char
  | [] => []
  | s :: rest => s.chars ++ Step.charsAfter rest

/-- The characters of the steps that follow another one. -/
def Step.charsAfter : List Step → List Char
  | [] => []
  | s :: rest => s.separator ++ s.chars ++ Step.charsAfter rest

end

namespace Path

def steps : Path → List Step
  | key name => [.key name]
  | keys names => [.keys names]
  | push => [.push]
  | each inner => [.each inner.steps]
  | down name rest => .key name :: rest.steps

theorem steps_ne_nil (p : Path) : p.steps ≠ [] := by
  cases p <;> simp [steps]

def chars (p : Path) : List Char := Step.charsAll p.steps

def text (p : Path) : String := String.ofList p.chars

/-- What stands between a key and the path that goes on below it. -/
def separator : Path → List Char
  | each _ => []
  | _ => [':']

theorem charsAfter_steps (p : Path) : Step.charsAfter p.steps = p.separator ++ p.chars := by
  cases p <;> simp [steps, chars, separator, Step.separator, Step.charsAfter, Step.charsAll]

theorem chars_key (name : String) : (key name).chars = name.toList := by
  simp [chars, steps, Step.charsAll, Step.charsAfter, Step.chars]

theorem chars_keys (names : List String) :
    (keys names).chars = List.intercalate [','] (names.map String.toList) := by
  simp [chars, steps, Step.charsAll, Step.charsAfter, Step.chars]

theorem chars_push : push.chars = ['[', ']'] := by
  simp [chars, steps, Step.charsAll, Step.charsAfter, Step.chars]

theorem chars_each (inner : Path) : (each inner).chars = ['['] ++ inner.chars ++ [']'] := by
  simp [chars, steps, Step.charsAll, Step.charsAfter, Step.chars]

theorem chars_down (name : String) (rest : Path) :
    (down name rest).chars = name.toList ++ (rest.separator ++ rest.chars) := by
  rw [← charsAfter_steps]
  simp [chars, steps, Step.charsAll, Step.chars]

/-- The path that descends by some keys before it goes on. -/
def under (names : List String) (p : Path) : Path := names.foldr down p

@[simp] theorem under_nil (p : Path) : under [] p = p := rfl

@[simp] theorem under_cons (k : String) (ks : List String) (p : Path) :
    under (k :: ks) p = down k (under ks p) := rfl

theorem under_append (ks ls : List String) (p : Path) :
    under (ks ++ ls) p = under ks (under ls p) :=
  List.foldr_append

/-- The path along some keys that ends at the last of them. -/
def ofKeys? : List String → Option Path
  | [] => none
  | k :: ks => some (match ofKeys? ks with
    | none => key k
    | some p => down k p)

theorem ofKeys?_append_singleton (ks : List String) (k : String) :
    ofKeys? (ks ++ [k]) = some (under ks (key k)) := by
  induction ks with
  | nil => rfl
  | cons l ks ih => simp [ofKeys?, ih]

theorem ofKeys?_eq_some {ks : List String} {p : Path} (h : ofKeys? ks = some p) :
    ∃ init last, ks = init ++ [last] ∧ p = under init (key last) := by
  rcases List.eq_nil_or_concat ks with rfl | ⟨init, last, rfl⟩
  · simp [ofKeys?] at h
  · rw [List.concat_eq_append, ofKeys?_append_singleton] at h
    exact ⟨init, last, List.concat_eq_append, (Option.some.inj h).symm⟩

/-- The names in a path, in the order in which its text shows them. -/
def names : Path → List String
  | key k => [k]
  | keys ks => ks
  | push => []
  | each inner => inner.names
  | down k rest => k :: rest.names

/-- The number of brackets around the innermost inner path. -/
def nesting : Path → Nat
  | each inner => inner.nesting + 1
  | down _ rest => rest.nesting
  | _ => 0

end Path

end TreePaths
