/-!
# The beginning of a text

`begins needle text` says whether `text` starts with `needle`, and `withoutStart needle text` drops
that start once. A text that does not start with the needle is left as it is.
-/

namespace TreePaths.Text

/-- What follows a needle at the start of a text, if the text starts with it. -/
def afterStart? : List Char → List Char → Option (List Char)
  | [], cs => some cs
  | _ :: _, [] => none
  | n :: ns, c :: cs => if n = c then afterStart? ns cs else none

theorem afterStart?_eq_some_iff {ns cs rest : List Char} :
    afterStart? ns cs = some rest ↔ cs = ns ++ rest := by
  induction ns generalizing cs with
  | nil => simp [afterStart?]
  | cons n ns ih =>
      cases cs with
      | nil => simp [afterStart?]
      | cons c cs =>
          by_cases h : n = c
          · simp [afterStart?, h, ih]
          · simp [afterStart?, h, Ne.symm h]

def begins (needle text : String) : Bool := (afterStart? needle.toList text.toList).isSome

/-- A text without a needle at its start, dropped once. -/
def withoutStart (needle text : String) : String :=
  match afterStart? needle.toList text.toList with
  | some rest => String.ofList rest
  | none => text

/-- A text that starts with the needle is the needle and what is left. -/
theorem append_withoutStart {needle text : String} (h : begins needle text = true) :
    needle ++ withoutStart needle text = text := by
  cases hr : afterStart? needle.toList text.toList with
  | none => simp [begins, hr] at h
  | some rest =>
      apply String.toList_injective
      rw [String.toList_append, withoutStart, hr, afterStart?_eq_some_iff.1 hr,
        String.toList_ofList]

end TreePaths.Text
