/-!
# JSON documents

A document keeps numbers and strings as they are spelled, so that a part that nobody asks for needs
no meaning. `Json.text?` and `Json.natural?` say what a spelling means, `Json.ofText` and
`Json.ofNat` spell a value. A spelled string may fail to mean a text, since its escapes may name one
half of a surrogate pair.
-/

namespace CudaToHip

/-- A JSON document; numbers, strings and keys as spelled, strings and keys without their quotes. -/
inductive Json where
  | null
  | bool (b : Bool)
  | number (spelled : List Char)
  | string (spelled : List Char)
  | array (items : List Json)
  | object (fields : List (List Char × Json))
  deriving Repr, Inhabited

namespace Json

/-! ## Characters -/

/-- The value of a hexadecimal digit. -/
def hexValue? (c : Char) : Option Nat :=
  if '0' ≤ c ∧ c ≤ '9' then some (c.toNat - '0'.toNat)
  else if 'a' ≤ c ∧ c ≤ 'f' then some (c.toNat - 'a'.toNat + 10)
  else if 'A' ≤ c ∧ c ≤ 'F' then some (c.toNat - 'A'.toNat + 10)
  else none

/-- The number that four hexadecimal digits spell. -/
def hexNumber? (a b c d : Char) : Option Nat := do
  return ((← hexValue? a) * 16 + (← hexValue? b)) * 256 + ((← hexValue? c) * 16 + (← hexValue? d))

/-- What a letter behind a backslash stands for. -/
def shortEscape? (c : Char) : Option Char :=
  [('"', '"'), ('\\', '\\'), ('/', '/'), ('b', '\x08'), ('f', '\x0c'), ('n', '\n'), ('r', '\r'),
   ('t', '\t')].lookup c

/-- The code point of a surrogate pair. -/
def pairValue (high low : Nat) : Nat := 0x10000 + (high - 0xD800) * 0x400 + (low - 0xDC00)

def isHighSurrogate (n : Nat) : Bool := 0xD800 ≤ n && n < 0xDC00

def isLowSurrogate (n : Nat) : Bool := 0xDC00 ≤ n && n < 0xE000

/-- The characters that a spelled string means. -/
def unescape? : List Char → Option (List Char)
  | [] => some []
  | '\\' :: 'u' :: a :: b :: c :: d :: cs => do
    let n ← hexNumber? a b c d
    if isHighSurrogate n then
      match cs with
      | '\\' :: 'u' :: a' :: b' :: c' :: d' :: rest =>
        let low ← hexNumber? a' b' c' d'
        guard (isLowSurrogate low)
        return Char.ofNat (pairValue n low) :: (← unescape? rest)
      | _ => none
    else
      guard !(isLowSurrogate n)
      return Char.ofNat n :: (← unescape? cs)
  | '\\' :: c :: cs => do return (← shortEscape? c) :: (← unescape? cs)
  | c :: cs => do return c :: (← unescape? cs)

/-- A digit of a lowercase hexadecimal number. -/
def hexDigit (n : Nat) : Char := Nat.digitChar n

/-- How a character is spelled in a string. -/
def escapeChar (c : Char) : List Char :=
  if c = '"' then ['\\', '"']
  else if c = '\\' then ['\\', '\\']
  else if c = '\x08' then ['\\', 'b']
  else if c = '\x0c' then ['\\', 'f']
  else if c = '\n' then ['\\', 'n']
  else if c = '\r' then ['\\', 'r']
  else if c = '\t' then ['\\', 't']
  else if c.toNat < 0x20 then
    ['\\', 'u', '0', '0', hexDigit (c.toNat / 16), hexDigit (c.toNat % 16)]
  else [c]

/-! ## Values -/

/-- The document of a text. -/
def ofText (s : String) : Json := .string (s.toList.flatMap escapeChar)

/-- The document of a number. -/
def ofNat (n : Nat) : Json := .number (Nat.toDigits 10 n)

/-- The document with the given fields. -/
def ofFields (fields : List (String × Json)) : Json :=
  .object (fields.map fun (key, value) => (key.toList.flatMap escapeChar, value))

/-- The text a string means. -/
def text? : Json → Option String
  | .string spelled => (unescape? spelled).map String.ofList
  | _ => none

def bool? : Json → Option Bool
  | .bool b => some b
  | _ => none

/-- The value of a number spelled by digits alone. -/
def natural? : Json → Option Nat
  | .number spelled =>
    if spelled.all Char.isDigit then
      some (spelled.foldl (fun n c => n * 10 + (c.toNat - '0'.toNat)) 0)
    else none
  | _ => none

/-- The fields of an object, in order, if every key means a text. -/
def fields? : Json → Option (List (String × Json))
  | .object fields => fields.mapM fun (key, value) => do
      return (String.ofList (← unescape? key), value)
  | _ => none

/-- The value of the only field with a key: `some none` if there is no such field, and nothing if
there are several. -/
def unique? (fields : List (String × Json)) (key : String) : Option (Option Json) :=
  match fields.filter (·.1 = key) with
  | [] => some none
  | [(_, value)] => some (some value)
  | _ => none

/-- The values of the named fields of a record, in the order of the names. An object gives them by
key and may hold other fields too; an array gives the first of them by position. -/
def record? (names : List String) (j : Json) : Option (List (Option Json)) :=
  match j with
  | .array items =>
    if items.length ≤ names.length then
      some ((List.range names.length).map fun i => items[i]?)
    else none
  | _ => do
    let fields ← j.fields?
    names.mapM (unique? fields)

end Json

end CudaToHip
