import TreePaths.Text.Invisible

/-!
# Quoted text for messages

A text is quoted for a message so that it stands on one line and nothing in it is hidden: it is put
between double quotes, a double quote or backslash inside it gets a backslash, the four common
control characters are written by name, and any other character without a visible shape of its own
is written by its number in braces.
-/

namespace TreePaths.Text

/-- The written form of one character of a quoted text. -/
def quotedChar (c : Char) : List Char :=
  match c with
  | '"' => ['\\', '"']
  | '\\' => ['\\', '\\']
  | '\x00' => ['\\', '0']
  | '\t' => ['\\', 't']
  | '\n' => ['\\', 'n']
  | '\r' => ['\\', 'r']
  | c =>
    if isInvisible c then ['\\', 'u', '\x7b'] ++ Nat.toDigits 16 c.toNat ++ ['\x7d'] else [c]

/-- A text between double quotes, with everything that would be hidden spelt out. -/
def quoted (text : String) : String :=
  String.ofList (['"'] ++ text.toList.flatMap quotedChar ++ ['"'])

example : quoted "a\"\n" = "\"a\\\"\\n\"" := by decide +kernel

example : quoted "e\u0301" = "\"e\\u\x7b301\x7d\"" := by decide +kernel

end TreePaths.Text
