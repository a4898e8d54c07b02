import CudaToHip.Json.Basic

/-!
# Reading JSON

`Json.parse?` reads a whole document. The reader goes down with a bound on its steps; each step
takes at least every other time a character, so twice the length of the text is enough.
-/

namespace CudaToHip.Json

/-- Blanks between the parts of a document. -/
def isBlank (c : Char) : Bool := c = ' ' || c = '\n' || c = '\t' || c = '\r'

def skipBlanks (cs : List Char) : List Char := cs.dropWhile isBlank

/-- A spelled string up to its closing quote, and what follows the quote. -/
def readString? : List Char → Option (List Char × List Char)
  | [] => none
  | '"' :: cs => some ([], cs)
  | '\\' :: 'u' :: a :: b :: c :: d :: cs => do
    let _ ← hexNumber? a b c d
    let (spelled, rest) ← readString? cs
    return ('\\' :: 'u' :: a :: b :: c :: d :: spelled, rest)
  | '\\' :: c :: cs => do
    let _ ← shortEscape? c
    let (spelled, rest) ← readString? cs
    return ('\\' :: c :: spelled, rest)
  | c :: cs => do
    guard (0x20 ≤ c.toNat && c ≠ '\\')
    let (spelled, rest) ← readString? cs
    return (c :: spelled, rest)

/-- Digits at the front of a text, and what follows them. -/
def readDigits (cs : List Char) : List Char × List Char :=
  (cs.takeWhile Char.isDigit, cs.dropWhile Char.isDigit)

/-- The whole part of a number: a zero alone, or digits that do not begin with one. -/
def readWhole? : List Char → Option (List Char × List Char)
  | '0' :: cs => some (['0'], cs)
  | cs =>
    match readDigits cs with
    | ([], _) => none
    | found => some found

/-- The fraction of a number, if a point follows. -/
def readFraction? : List Char → Option (List Char × List Char)
  | '.' :: cs =>
    match readDigits cs with
    | ([], _) => none
    | (ds, rest) => some ('.' :: ds, rest)
  | cs => some ([], cs)

/-- The sign of an exponent, if there is one. -/
def readSign : List Char → List Char × List Char
  | '+' :: cs => (['+'], cs)
  | '-' :: cs => (['-'], cs)
  | cs => ([], cs)

/-- The exponent of a number, if its letter follows. -/
def readExponent? : List Char → Option (List Char × List Char)
  | [] => some ([], [])
  | c :: cs =>
    if c = 'e' ∨ c = 'E' then
      let (sign, cs) := readSign cs
      match readDigits cs with
      | ([], _) => none
      | (ds, rest) => some (c :: sign ++ ds, rest)
    else some ([], c :: cs)

/-- A spelled number and what follows it. -/
def readNumber? (cs : List Char) : Option (List Char × List Char) := do
  let (minus, cs) : List Char × List Char :=
    match cs with
    | '-' :: cs => (['-'], cs)
    | cs => ([], cs)
  let (whole, cs) ← readWhole? cs
  let (fraction, cs) ← readFraction? cs
  let (exponent, cs) ← readExponent? cs
  return (minus ++ whole ++ fraction ++ exponent, cs)

/-- What is left of a text behind the given word. -/
def behind? (word : String) (cs : List Char) : Option (List Char) :=
  if word.toList.isPrefixOf cs then some (cs.drop word.toList.length) else none

mutual

/-- A document at the front of a text, in at most `bound` steps. -/
def readValue? (bound : Nat) (cs : List Char) : Option (Json × List Char) :=
  match bound with
  | 0 => none
  | bound + 1 =>
    match skipBlanks cs with
    | [] => none
    | '"' :: cs => (readString? cs).map fun (spelled, rest) => (.string spelled, rest)
    | '[' :: cs =>
      match skipBlanks cs with
      | ']' :: rest => some (.array [], rest)
      | cs => (readItems? bound cs).map fun (items, rest) => (.array items, rest)
    | '\x7b' :: cs =>
      match skipBlanks cs with
      | '\x7d' :: rest => some (.object [], rest)
      | cs => (readFields? bound cs).map fun (fields, rest) => (.object fields, rest)
    | 'n' :: cs => (behind? "ull" cs).map (.null, ·)
    | 't' :: cs => (behind? "rue" cs).map (.bool true, ·)
    | 'f' :: cs => (behind? "alse" cs).map (.bool false, ·)
    | cs => (readNumber? cs).map fun (spelled, rest) => (.number spelled, rest)

/-- The items of an array up to its closing bracket. -/
def readItems? (bound : Nat) (cs : List Char) : Option (List Json × List Char) :=
  match bound with
  | 0 => none
  | bound + 1 => do
    let (item, cs) ← readValue? bound cs
    match skipBlanks cs with
    | ',' :: cs =>
      let (items, rest) ← readItems? bound cs
      return (item :: items, rest)
    | ']' :: rest => return ([item], rest)
    | _ => none

/-- The fields of an object up to its closing brace. -/
def readFields? (bound : Nat) (cs : List Char) : Option (List (List Char × Json) × List Char) :=
  match bound with
  | 0 => none
  | bound + 1 =>
    match skipBlanks cs with
    | '"' :: cs => do
      let (key, cs) ← readString? cs
      let cs ← behind? ":" (skipBlanks cs)
      let (value, cs) ← readValue? bound cs
      match skipBlanks cs with
      | ',' :: cs =>
        let (fields, rest) ← readFields? bound cs
        return ((key, value) :: fields, rest)
      | '\x7d' :: rest => return ([(key, value)], rest)
      | _ => none
    | _ => none

end

/-- The document that a text spells, blanks around it apart. -/
def parse? (text : String) : Option Json :=
  let cs := text.toList
  match readValue? (2 * cs.length + 1) cs with
  | some (j, rest) => if (skipBlanks rest).isEmpty then some j else none
  | none => none

end CudaToHip.Json
