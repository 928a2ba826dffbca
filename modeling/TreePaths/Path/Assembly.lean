import TreePaths.Path.Basic
import TreePaths.Path.Error

/-!
# Paths assembled from steps

A list of steps is a path if it is not empty, every step but the last is a key, and the same holds
inside brackets, which may be nested up to a limit. Of two faults the one that is met first on the
way through the steps is reported, and a fault inside brackets only after those around it.
-/

namespace TreePaths

mutual

/-- The path that consists of one step, with `room` levels of brackets left of `limit`. -/
def Step.path (limit : Nat) : Nat → Step → Except GrammarError Path
  | _, .key name => .ok (.key name)
  | _, .keys names => .ok (.keys names)
  | _, .push => .ok .push
  | 0, .each _ => .error (.tooDeep limit)
  | room + 1, .each inner => (Step.pathAll limit room inner).map .each

/-- The path that a list of steps spells, with `room` levels of brackets left of `limit`. -/
def Step.pathAll (limit : Nat) : Nat → List Step → Except GrammarError Path
  | _, [] => .error .noSteps
  | room, s :: rest =>
    if rest.isEmpty then s.path limit room
    else
      match s with
      | .key name => (Step.pathAll limit room rest).map (.down name)
      | s => .error (.stepAfterEnd (String.ofList s.chars))

end

/-- The path that a list of steps spells, with brackets nested up to a limit. -/
def Path.ofSteps (limit : Nat) (steps : List Step) : Except GrammarError Path :=
  Step.pathAll limit limit steps

end TreePaths
