import CudaToHip.Json.Basic

/-!
# Writing JSON

`Json.pretty` writes a document over several lines, each level set in by two blanks, with arrays and
objects that hold nothing on one line.
-/

namespace CudaToHip.Json

/-- A line break and the blanks at the front of a line at some depth. -/
def newline (depth : Nat) : List Char := '\n' :: List.replicate (2 * depth) ' '

mutual

/-- The lines of a document that begins at some depth. -/
def prettyChars (depth : Nat) : Json → List Char
  | .null => "null".toList
  | .bool b => (if b then "true" else "false").toList
  | .number spelled => spelled
  | .string spelled => '"' :: spelled ++ ['"']
  | .array [] => ['[', ']']
  | .array (x :: xs) =>
    '[' :: newline (depth + 1) ++ prettyChars (depth + 1) x ++ prettyItems (depth + 1) xs ++
      newline depth ++ [']']
  | .object [] => ['\x7b', '\x7d']
  | .object ((key, x) :: xs) =>
    '\x7b' :: newline (depth + 1) ++ '"' :: key ++ ['"', ':', ' '] ++ prettyChars (depth + 1) x ++
      prettyFields (depth + 1) xs ++ newline depth ++ ['\x7d']

/-- The items behind the first one of an array. -/
def prettyItems (depth : Nat) : List Json → List Char
  | [] => []
  | x :: xs => ',' :: newline depth ++ prettyChars depth x ++ prettyItems depth xs

/-- The fields behind the first one of an object. -/
def prettyFields (depth : Nat) : List (List Char × Json) → List Char
  | [] => []
  | (key, x) :: xs =>
    ',' :: newline depth ++ '"' :: key ++ ['"', ':', ' '] ++ prettyChars depth x ++
      prettyFields depth xs

end

/-- The document over several lines. -/
def pretty (j : Json) : String := String.ofList (prettyChars 0 j)

end CudaToHip.Json
