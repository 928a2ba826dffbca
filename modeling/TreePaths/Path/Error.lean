/-!
# Errors of path expressions

An error names the rule that a text or a list of steps breaks, and carries what the message quotes.
-/

namespace TreePaths

/-- Why a text is not a path expression, or why a list of steps is not a path. -/
inductive GrammarError where
  /-- A list of keys stands where the path has to go on. -/
  | listBeforeEnd (text : String)
  | unbalanced (text : String)
  /-- Something follows a closing bracket. -/
  | afterBracket (text : String)
  /-- Alternatives stand inside brackets. -/
  | alternativesInside (text : String)
  /-- A list of keys stands right before a bracket. -/
  | listBeforeBracket (text : String)
  /-- A step that ends a path is followed by another one. -/
  | stepAfterEnd (step : String)
  | noSteps
  | tooDeep (limit : Nat)
deriving DecidableEq

def GrammarError.message : GrammarError → String
  | listBeforeEnd text => "Comma list is only allowed in the final segment: " ++ text
  | unbalanced text => "Unbalanced subarray brackets: " ++ text
  | afterBracket text => "Subarray must be the last part of the keymap: " ++ text
  | alternativesInside text => "Subarray may not contain alternatives: " ++ text
  | listBeforeBracket text => "Exactly one key may precede a subarray: " ++ text
  | stepAfterEnd step => "Step must be the last one in the path: " ++ step
  | noSteps => "Empty path"
  | tooDeep limit => "Subarray nesting exceeds " ++ limit.repr ++ " levels"

end TreePaths
